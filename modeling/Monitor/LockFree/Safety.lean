import Monitor.LockFree.Ownership

/-! # What careful runs guarantee

Four steps change the owner of a slot: a successful compare-and-swap on the tail or on
the head, the store that publishes an item, and the last store of a dequeue. Each keeps
the invariant, and the invariant gives the guarantees of a queue (`careful_run_safe`).
Without care they fail: in the run `overtaken` others go once around the ring past a
consumer that has not read its slot yet.
-/

namespace Monitor.LockFree

open List Function

variable {ι : Type}

namespace Queue

theorem eq_of_mod_eq {p q c : Nat} (same : p % c = q % c) (ahead : p < q + c) (behind : q < p + c) :
    p = q := by
  rcases Nat.le_total p q with le | le
  · have := Nat.eq_zero_of_dvd_of_lt
      (Nat.dvd_of_mod_eq_zero (Nat.sub_mod_eq_zero_of_mod_eq same.symm)) (by omega : q - p < c)
    omega
  · have := Nat.eq_zero_of_dvd_of_lt
      (Nat.dvd_of_mod_eq_zero (Nat.sub_mod_eq_zero_of_mod_eq same)) (by omega : p - q < c)
    omega

variable {x : Int × Pointer}

section Steps

variable {owner : Nat → Owner ι} {s : Queue ι} {i : ι}

theorem Inv.free_tail (inv : Inv owner s) (undrained : ∀ j, (s.threads j).drains ≠ some s.tail) :
    owner s.tail = .free := by
  have ok := inv.slot s.tail
  have live {p : Nat} (place : p % s.capacity = s.tail) (live : s.taken ≤ p)
      (below : p < s.items.length) : False := by
    have := eq_of_mod_eq (place.trans inv.tail_eq) (by omega) (by have := inv.room; omega)
    omega
  cases owner_ : owner s.tail with
  | free => rfl
  | writer j p =>
    rw [owner_] at ok
    cases ok with
    | writer place after item => exact (live place after (List.getElem?_eq_some_iff.mp item).1).elim
  | ready p =>
    rw [owner_] at ok
    cases ok with
    | ready place after item => exact (live place after (List.getElem?_eq_some_iff.mp item).1).elim
  | reader j p =>
    rw [owner_] at ok
    cases ok with
    | reader _ _ _ _ _ stage => exact absurd stage.slot.2 (undrained j)

theorem Inv.ready_head (inv : Inv owner s) (filled : s.head ≠ s.tail)
    (set : (s.connections s.head).state = 1) : ∃ x, owner s.head = .ready s.taken ∧
      s.items[s.taken]? = some x ∧ s.taken ∈ s.completed ∧ s.connections s.head = full x s.taken := by
  have below : s.taken < s.items.length := by
    refine Nat.lt_of_le_of_ne inv.order fun same => filled ?_
    rw [inv.head_eq, inv.tail_eq, same]
  have ticket := inv.live s.taken (Nat.le_refl _) below
  have ok := inv.slot s.head
  rw [← inv.head_eq] at ticket
  cases owner_ : owner s.head with
  | free =>
    rw [owner_] at ticket
    cases ticket
  | writer j p =>
    rw [owner_] at ok
    cases ok with
    | writer _ _ _ _ stage =>
      have clear := stage.slot.2
      omega
  | ready p =>
    rw [owner_] at ok ticket
    cases ticket
    cases ok with
    | ready _ _ item done content => exact ⟨_, rfl, item, done, content⟩
  | reader j p =>
    rw [owner_] at ok ticket
    cases ticket
    cases ok with
    | reader _ gone => exact absurd gone (Nat.lt_irrefl _)

variable [DecidableEq ι]

theorem Inv.claim (inv : Inv owner s) {fd : Int} {data : Pointer}
    (at_ : s.threads i = .enqueueCas fd data s.tail) (room : s.next s.tail ≠ s.head)
    (undrained : ∀ j, (s.threads j).drains ≠ some s.tail) :
    Inv (update owner s.tail (.writer i s.items.length)) (s.claim i fd data s.tail) := by
  have free := inv.free_tail undrained
  have clear : (s.connections s.tail).state = 0 := by
    have ok := inv.slot s.tail
    rw [free] at ok
    cases ok with
    | free clear => exact clear
  have nextTail : s.next s.tail = (s.items.length + 1) % s.capacity := by
    rw [next, inv.tail_eq, Nat.mod_add_mod]
  have length : (s.claim i fd data s.tail).items.length = s.items.length + 1 :=
    length_append
  have self : (s.claim i fd data s.tail).threads i = .writeFd fd data s.tail s.items.length :=
    goto_self ..
  have step : Local s (s.claim i fd data s.tail) i s.tail :=
    { Local.goto s i s.tail (.writeFd fd data s.tail s.items.length) with
      items := prefix_append _ _
      claimed := fun p below apart => by
        have other : p ≠ s.items.length := fun same => apart (by rw [same, inv.tail_eq])
        omega }
  have last (p : Nat) (live : s.taken ≤ p) (below : p < s.items.length + 1)
      (place : p % s.capacity = s.tail) : p = s.items.length := by
    have := inv.room
    exact eq_of_mod_eq (place.trans inv.tail_eq) (by omega) (by omega)
  refine inv.advance step ?_ ?_ (.work self rfl rfl ?_ ?_ ?_)
    ⟨inv.head_eq, ?_, ?_, ?_, ?_, ?_, inv.once⟩
  · intro j owned
    rw [free] at owned
    cases owned
  · intro m working
    rw [at_] at working
    cases working
  · refine .writer inv.tail_eq.symm inv.order (x := (fd, data)) ?_
      (fun mem => absurd (inv.known _ mem) (Nat.lt_irrefl _)) ?_
    · exact getElem?_concat_length
    · rw [self]
      exact .fd clear
  · intro p live below place
    rw [last p live (length ▸ below) place]
    rfl
  · intro p below place
    rcases inv.gone p below with returned | ⟨j, owned⟩
    · exact .inl returned
    · rw [place, free] at owned
      cases owned
  · rw [length]
    exact nextTail
  · exact length ▸ Nat.le_succ_of_le inv.order
  · rw [length]
    change s.items.length + 1 < s.taken + s.capacity
    have := inv.room
    have notFull : s.items.length + 1 ≠ s.taken + s.capacity := fun same =>
      room (by rw [nextTail, same, Nat.add_mod_right, inv.head_eq])
    omega
  · exact fun p mem => length ▸ Nat.lt_succ_of_lt (inv.known p mem)
  · intro r mem
    obtain ⟨p, x, gone, done, item, same⟩ := inv.sound r mem
    exact ⟨p, x, gone, done, step.item item, same⟩

variable {n : Nat} {t : Thread} {ticket : Nat}

theorem Inv.publish (inv : Inv owner s) (at_ : s.threads i = .writeState n ticket) :
    Inv (update owner n (.ready ticket)) (s.publish i n ticket) := by
  obtain ⟨p, x, owner_, place, live, item, _, stage⟩ := inv.writer at_ rfl
  cases stage with
  | state clear fd data =>
    have self : (s.publish i n ticket).threads i = .idle := goto_self ..
    have content : (s.publish i n ticket).connections n = full x ticket := by
      simp only [Queue.publish, goto, put, update_self, fd, data]
      rfl
    have step : Local s (s.publish i n ticket) i n :=
      { Local.put s i n { s.connections n with state := 1 } .idle with
        completed := fun q apart => by
          have other : q ≠ ticket := fun same => apart (by rw [same, place])
          change q ∈ s.completed ++ [ticket] ↔ q ∈ s.completed
          simp only [mem_append, mem_singleton, other, or_false] }
    obtain ⟨mine, only⟩ := inv.mine (n := n) (i := i) (by rw [owner_]; rfl)
    refine inv.advance step mine only (.leave self ?_ ?_ rfl ?_)
      ⟨inv.head_eq, inv.tail_eq, inv.order, inv.room, ?_, ?_, inv.once⟩
    · exact .ready place live item (mem_append_right _ mem_cons_self) content
    · intro q after below place'
      have same := inv.live q after below
      rw [place', owner_] at same
      exact same
    · intro q below place'
      rcases inv.gone q below with returned | ⟨j, owned⟩
      · exact .inl returned
      · rw [place', owner_] at owned
        cases owned
    · intro q mem
      rcases mem_append.mp mem with old | new
      · exact inv.known q old
      · rw [mem_singleton.mp new]
        exact (List.getElem?_eq_some_iff.mp item).1
    · intro r mem
      obtain ⟨q, y, gone, done, item, same⟩ := inv.sound r mem
      exact ⟨q, y, gone, mem_append_left _ done, item, same⟩

theorem Inv.take (inv : Inv owner s) (at_ : s.threads i = .dequeueCas s.head 1)
    (filled : s.head ≠ s.tail) (set : (s.connections s.head).state = 1) :
    Inv (update owner s.head (.reader i s.taken)) (s.take i s.head 1) := by
  obtain ⟨x, owner_, item, done, content⟩ := inv.ready_head filled set
  have below := (List.getElem?_eq_some_iff.mp item).1
  have unreturned : some s.taken ∉ s.tickets := by
    intro mem
    obtain ⟨r, given, same⟩ := mem_map.mp mem
    obtain ⟨p, y, gone, _, _, rfl⟩ := inv.sound r given
    cases same
    exact Nat.lt_irrefl _ gone
  have self : (s.take i s.head 1).threads i = .readFd s.head 1 s.taken := goto_self ..
  have step : Local s (s.take i s.head 1) i s.head :=
    { Local.goto s i s.head (.readFd s.head 1 s.taken) with
      advanced := Nat.le_succ _
      taken := fun p below apart => by
        have other : p ≠ s.taken := fun same => apart (by rw [same, inv.head_eq])
        exact Nat.lt_of_le_of_ne (Nat.le_of_lt_succ below) other }
  refine inv.advance step ?_ ?_ (.work self rfl rfl ?_ ?_ ?_)
    ⟨?_, inv.tail_eq, below, Nat.lt_of_lt_of_le inv.room ?_, inv.known, ?_, inv.once⟩
  · intro j owned
    rw [owner_] at owned
    cases owned
  · intro m working
    rw [at_] at working
    cases working
  · refine .reader inv.head_eq.symm (Nat.lt_succ_self _) item done unreturned ?_
    rw [self]
    change Draining _ _ _ _ (s.connections s.head)
    rw [content]
    exact .fd
  · intro p after limit place
    have same := inv.live p (Nat.le_of_succ_le after) limit
    rw [place, owner_] at same
    have := Option.some.inj same
    change s.taken + 1 ≤ p at after
    omega
  · intro p limit place
    by_cases same : p = s.taken
    · exact .inr ⟨i, by rw [same]⟩
    · rcases inv.gone p (Nat.lt_of_le_of_ne (Nat.le_of_lt_succ limit) same) with returned | ⟨j, owned⟩
      · exact .inl returned
      · rw [place, owner_] at owned
        cases owned
  · change s.next s.head = (s.taken + 1) % s.capacity
    rw [next, inv.head_eq, Nat.mod_add_mod]
  · exact Nat.add_le_add_right (Nat.le_succ _) _
  · intro r mem
    obtain ⟨p, y, gone, rest⟩ := inv.sound r mem
    exact ⟨p, y, Nat.lt_succ_of_lt gone, rest⟩

theorem Inv.finish (inv : Inv owner s) {conn : Connection}
    (at_ : s.threads i = .clearData n ticket conn) :
    Inv (update owner n .free) (s.finish i n conn) := by
  obtain ⟨p, x, owner_, place, gone, item, done, unreturned, stage⟩ := inv.reader at_ rfl
  cases stage with
  | clearData clear =>
    have self : (s.finish i n (full x ticket)).threads i = .idle := goto_self ..
    have tickets : (s.finish i n (full x ticket)).tickets = s.tickets ++ [some ticket] :=
      map_append
    have step : Local s (s.finish i n (full x ticket)) i n :=
      { Local.put s i n { s.connections n with data := ⟨0, none⟩ } .idle with
        tickets := fun q apart => by
          have other : q ≠ ticket := fun same => apart (by rw [same, place])
          rw [tickets]
          simp only [mem_append, mem_singleton, Option.some.injEq, other, or_false] }
    obtain ⟨mine, only⟩ := inv.mine (n := n) (i := i) (by rw [owner_]; rfl)
    refine inv.advance step mine only (.leave self (.free ?_) ?_ rfl ?_)
      ⟨inv.head_eq, inv.tail_eq, inv.order, inv.room, inv.known, ?_, ?_⟩
    · simp only [Queue.finish, goto, put, update_self, clear]
    · intro q after below place'
      have same := inv.live q after below
      rw [place', owner_] at same
      cases same
      exact absurd gone (Nat.not_lt_of_le after)
    · intro q below place'
      left
      rw [tickets]
      rcases inv.gone q below with returned | ⟨j, owned⟩
      · exact mem_append_left _ returned
      · rw [place', owner_] at owned
        cases owned
        exact mem_append_right _ mem_cons_self
    · intro r mem
      rcases mem_append.mp mem with old | new
      · exact inv.sound r old
      · exact ⟨ticket, x, gone, done, item, mem_singleton.mp new⟩
    · rw [tickets]
      exact inv.once.append (nodup_singleton _) (by simpa using unreturned)

theorem Inv.fill (inv : Inv owner s) {p : Nat} {c : Connection}
    (owner_ : owner n = .writer i p) (place : p % s.capacity = n) (live : s.taken ≤ p)
    (item : s.items[p]? = some x) (open_ : p ∉ s.completed) (stage : Writing x n p t c) :
    Inv owner ((s.put n c).goto i t) := by
  refine inv.stage (by rw [owner_]; rfl) stage.slot.1 ?_
  rw [owner_]
  exact .writer place live item open_ (by rw [goto_self, put_self]; exact stage)

theorem Inv.drain (inv : Inv owner s) {p : Nat} {c : Connection}
    (owner_ : owner n = .reader i p) (place : p % s.capacity = n) (gone : p < s.taken)
    (item : s.items[p]? = some x) (done : p ∈ s.completed) (open_ : some p ∉ s.tickets)
    (stage : Draining x n p t c) : Inv owner ((s.put n c).goto i t) := by
  refine inv.stage (by rw [owner_]; rfl) stage.slot.1 ?_
  rw [owner_]
  exact .reader place gone item done open_ (by rw [goto_self, put_self]; exact stage)

theorem Inv.of_put (after : Inv owner ((s.put n (s.connections n)).goto i t)) : Inv owner (s.goto i t) := by
  rwa [put, update_eq_self] at after

theorem proceed_inv (inv : Inv owner s) {spurious : Bool}
    (careful : s.CarefulStep i (.proceed spurious)) : ∃ owner', Inv owner' (s.proceed i spurious) := by
  cases at_ : s.threads i with simp only [proceed, at_]
  | idle => exact ⟨owner, inv⟩
  | enqueueTail fd data => exact ⟨owner, inv.quiet (by rw [at_]; rfl) rfl (by rintro _ _ ⟨⟩)⟩
  | enqueueHead fd data tail =>
    split <;> exact ⟨owner, inv.quiet (by rw [at_]; rfl) rfl (by rintro _ _ ⟨⟩)⟩
  | enqueueCas fd data tail =>
    split
    · rename_i success
      obtain ⟨rfl, rfl⟩ := success
      simp only [CarefulStep, at_, true_implies] at careful
      exact ⟨_, inv.claim at_ careful.1 careful.2⟩
    · exact ⟨owner, inv.quiet (by rw [at_]; rfl) rfl (by rintro _ _ ⟨⟩)⟩
  | writeFd fd data tail ticket =>
    obtain ⟨p, x, owner_, place, live, item, open_, stage⟩ := inv.writer at_ rfl
    cases stage with
    | fd clear => exact ⟨owner, inv.fill owner_ place live item open_ (.data clear rfl)⟩
  | writeData data tail ticket =>
    obtain ⟨p, x, owner_, place, live, item, open_, stage⟩ := inv.writer at_ rfl
    cases stage with
    | data clear fd => exact ⟨owner, inv.fill owner_ place live item open_ (.state clear fd rfl)⟩
  | writeState tail ticket => exact ⟨_, inv.publish at_⟩
  | dequeueHead => exact ⟨owner, inv.quiet (by rw [at_]; rfl) rfl (by rintro _ _ ⟨⟩)⟩
  | dequeueTail head => split <;> exact ⟨owner, inv.quiet (by rw [at_]; rfl) rfl (by rintro _ _ ⟨⟩)⟩
  | dequeueState head =>
    split
    · rename_i set
      refine ⟨owner, inv.quiet (by rw [at_]; rfl) rfl ?_⟩
      rintro _ _ ⟨⟩
      exact set
    · exact ⟨owner, inv.quiet (by rw [at_]; rfl) rfl (by rintro _ _ ⟨⟩)⟩
  | dequeueCas head state =>
    obtain rfl := inv.loaded i head state at_
    split
    · rename_i success
      obtain ⟨rfl, rfl⟩ := success
      simp only [CarefulStep, at_, true_implies] at careful
      exact ⟨_, inv.take at_ careful.1 careful.2⟩
    · exact ⟨owner, inv.quiet (by rw [at_]; rfl) rfl (by rintro _ _ ⟨⟩)⟩
  | readFd head state ticket =>
    obtain ⟨p, x, owner_, place, gone, item, done, open_, stage⟩ := inv.reader at_ rfl
    generalize content : s.connections head = c at stage
    cases stage with
    | fd =>
      refine ⟨owner, Inv.of_put (n := head) ?_⟩
      rw [content]
      exact inv.drain owner_ place gone item done open_ .data
  | readData head state ticket fd =>
    obtain ⟨p, x, owner_, place, gone, item, done, open_, stage⟩ := inv.reader at_ rfl
    generalize content : s.connections head = c at stage
    cases stage with
    | data =>
      refine ⟨owner, Inv.of_put (n := head) ?_⟩
      rw [content]
      exact inv.drain owner_ place gone item done open_ .state
  | clearState head ticket conn =>
    obtain ⟨p, x, owner_, place, gone, item, done, open_, stage⟩ := inv.reader at_ rfl
    generalize content : s.connections head = c at stage
    cases stage with
    | state => exact ⟨owner, inv.drain owner_ place gone item done open_ (.clearFd rfl)⟩
  | clearFd head ticket conn =>
    obtain ⟨p, x, owner_, place, gone, item, done, open_, stage⟩ := inv.reader at_ rfl
    cases stage with
    | clearFd clear => exact ⟨owner, inv.drain owner_ place gone item done open_ (.clearData clear)⟩
  | clearData head ticket conn => exact ⟨_, inv.finish at_⟩

theorem step_inv (inv : Inv owner s) {choice : Choice} (careful : s.CarefulStep i choice) :
    ∃ owner', Inv owner' (s.step i choice) := by
  cases choice with
  | proceed spurious => exact proceed_inv inv careful
  | enqueue fd data =>
    simp only [step]
    cases at_ : s.threads i with
    | idle =>
      simp only
      split
      · exact ⟨owner, inv⟩
      · exact ⟨owner, inv.quiet (by rw [at_]; rfl) rfl (by rintro _ _ ⟨⟩)⟩
    | _ => exact ⟨owner, inv⟩
  | dequeue =>
    simp only [step]
    cases at_ : s.threads i with
    | idle => exact ⟨owner, inv.quiet (by rw [at_]; rfl) rfl (by rintro _ _ ⟨⟩)⟩
    | _ => exact ⟨owner, inv⟩

theorem run_inv : ∀ (actions : List (ι × Choice)) {s : Queue ι} {owner : Nat → Owner ι},
    Inv owner s → s.Careful actions → ∃ owner', Inv owner' (s.run actions) := by
  intro actions
  induction actions with
  | nil => exact fun inv _ => ⟨_, inv⟩
  | cons action actions ih =>
    intro s owner inv careful
    obtain ⟨owner', inv'⟩ := step_inv inv careful.1
    exact ih inv' careful.2

end Steps

/-- Where the words of an item still are: in a slot, or copied by the dequeue that returns it. -/
def carries (s : Queue ι) (p : Nat) : Thread → Prop
  | .readData head _ _ fd => fd.ticket = some p ∧ (s.connections head).data.ticket = some p
  | .clearState _ _ conn | .clearFd _ _ conn | .clearData _ _ conn =>
    conn.fd.ticket = some p ∧ conn.data.ticket = some p
  | _ => False

def Present (s : Queue ι) (p : Nat) : Prop :=
  (∃ n, (s.connections n).fd.ticket = some p ∧ (s.connections n).data.ticket = some p) ∨
    ∃ i, s.carries p (s.threads i)

/-- No item is returned twice, only what was enqueued is returned, and an item whose enqueue
    returned is there until a dequeue has returned it. -/
structure Safe (s : Queue ι) : Prop where
  once : s.tickets.Nodup
  enqueued : ∀ r ∈ s.returned, ∃ p ∈ s.completed, ∃ x, s.items[p]? = some x ∧ r = full x p
  kept : ∀ p ∈ s.completed, some p ∉ s.tickets → s.Present p

theorem present_of_draining {s : Queue ι} {i : ι} {n p : Nat}
    (draining : Draining x n p (s.threads i) (s.connections n)) : s.Present p := by
  generalize content : s.connections n = c at draining
  generalize at_ : s.threads i = t at draining
  cases draining with
  | fd | data | state => exact .inl ⟨n, by rw [content]; exact ⟨rfl, rfl⟩⟩
  | clearFd | clearData => exact .inr ⟨i, by rw [at_]; exact ⟨rfl, rfl⟩⟩

theorem Inv.safe {owner : Nat → Owner ι} {s : Queue ι} (inv : Inv owner s) : Safe s where
  once := inv.once
  enqueued r mem := by
    obtain ⟨p, x, _, done, item, same⟩ := inv.sound r mem
    exact ⟨p, done, x, item, same⟩
  kept p done unreturned := by
    have ok := inv.slot (p % s.capacity)
    rcases Nat.lt_or_ge p s.taken with gone | live
    · rcases inv.gone p gone with returned | ⟨i, owner_⟩
      · exact absurd returned unreturned
      · rw [owner_] at ok
        cases ok with
        | reader _ _ _ _ _ stage => exact present_of_draining stage
    · have ticket := inv.live p live (inv.known p done)
      cases owner_ : owner (p % s.capacity) with
      | free =>
        rw [owner_] at ticket
        cases ticket
      | writer i q =>
        rw [owner_] at ok ticket
        cases ticket
        cases ok with
        | writer _ _ _ open_ => exact absurd done open_
      | ready q =>
        rw [owner_] at ok ticket
        cases ticket
        cases ok with
        | ready _ _ _ _ content => exact .inl ⟨_, by rw [content]; exact ⟨rfl, rfl⟩⟩
      | reader i q =>
        rw [owner_] at ok ticket
        cases ticket
        cases ok with
        | reader _ _ _ _ _ stage => exact present_of_draining stage

/-- Careful runs of any number of threads keep the guarantees, at every capacity. -/
theorem careful_run_safe [DecidableEq ι] {capacity : Nat} {s : Queue ι}
    (start : lfqInit ι capacity = some s) (actions : List (ι × Choice))
    (careful : s.Careful actions) : Safe (s.run actions) := by
  obtain ⟨owner, inv⟩ := run_inv actions (lfqInit_inv start) careful
  exact inv.safe

section Runs

/-- A thread enters a call and makes some steps of it. -/
def call (i : ι) (choice : Choice) (steps : Nat) : List (ι × Choice) :=
  (i, choice) :: List.replicate steps (i, .proceed false)

/-- Thread 1 takes the first item while thread 0 writes the second. -/
def interleaved : List (Fin 2 × Choice) :=
  call 0 (.enqueue 10 100) 6 ++ call 0 (.enqueue 11 101) 3 ++ call 1 .dequeue 4 ++
    List.replicate 3 (0, .proceed false) ++ List.replicate 5 (1, .proceed false) ++ call 1 .dequeue 9

/-- Thread 1 has taken its slot and stops. Two more items and another consumer go past it, so
    that the second of them is written to the slot that thread 1 has not read. Threads 1 and 2
    then both read it. -/
def overtaken : List (Fin 3 × Choice) :=
  call 0 (.enqueue 10 100) 6 ++ call 1 .dequeue 4 ++ call 0 (.enqueue 11 101) 6 ++
    call 2 .dequeue 9 ++ call 0 (.enqueue 12 102) 6 ++ List.replicate 2 (1, .proceed false) ++
    call 2 .dequeue 9 ++ List.replicate 3 (1, .proceed false)

end Runs

theorem careful_run_safe_interleaved : Safe ((initial (Fin 2) 3).run interleaved) ∧
    ((initial (Fin 2) 3).run interleaved).tickets = [some 0, some 1] := by
  have start : lfqInit (Fin 2) 3 = some (initial (Fin 2) 3) := rfl
  exact ⟨careful_run_safe start interleaved (by decide +kernel), by decide +kernel⟩

/-- Three items are enqueued, the first is lost and the third is returned twice. -/
theorem overtaken_unsafe :
    ((initial (Fin 3) 2).run overtaken).completed = [0, 1, 2] ∧
      ((initial (Fin 3) 2).run overtaken).tickets = [some 1, some 2, some 2] ∧
      (∀ i, ((initial (Fin 3) 2).run overtaken).threads i = .idle) ∧
      (∀ n < 2, (((initial (Fin 3) 2).run overtaken).connections n).fd.ticket ≠ some 0) ∧
      ¬ Safe ((initial (Fin 3) 2).run overtaken) := by
  have tickets : ((initial (Fin 3) 2).run overtaken).tickets = [some 1, some 2, some 2] := by
    decide +kernel
  refine ⟨by decide +kernel, tickets, by decide +kernel, by decide +kernel, fun safe => ?_⟩
  have once := safe.once
  exact absurd once (by decide)

end Queue

end Monitor.LockFree
