import Monitor.Lib.Channel
import Monitor.Lib.GoMap
import Monitor.Lib.GoText
import Monitor.Lib.Runs

/-! # Events of the host manager

The subscriptions of `HostManager`: `Subscribe`, `Unsubscribe`, `dispatchEvent` and
`cleanupResources` of `manager.go`, and the receives of the subscribers. Every method holds
the lock of the manager. Beside the manager a record is kept of what each subscriber was
offered and has received.
-/

namespace Monitor.Host

open GoText Channel Runs List Function GoMap

/-- The buffer that `Subscribe` gives a channel. -/
def subscriberBuffer : Nat := 50

/-- The subscriber table, and the channels it refers to. -/
structure HostManager (Ev : Type) where
  subscribers : List (GoString × Nat)
  channels : Nat → Chan Ev
  next : Nat

namespace HostManager

variable {Ev : Type}

def newHostManager : HostManager Ev := ⟨[], fun _ => .fresh, 0⟩

def handles (m : HostManager Ev) : List Nat := m.subscribers.map (·.2)

/-- `Subscribe`; the new channel is at the handle `m.next`. -/
def subscribe (m : HostManager Ev) (id : GoString) : HostManager Ev where
  subscribers := GoMap.set id m.next m.subscribers
  channels := update m.channels m.next .fresh
  next := m.next + 1

def unsubscribe (m : HostManager Ev) (id : GoString) : HostManager Ev :=
  match GoMap.get id m.subscribers with
  | none => m
  | some h =>
    { m with
      subscribers := GoMap.erase id m.subscribers
      channels := update m.channels h { m.channels h with closed := true } }

/-- `dispatchEvent`; sending on a closed channel would panic. -/
def dispatchEvent (m : HostManager Ev) (event : Ev) : Option (HostManager Ev) :=
  if m.handles.any fun h => (m.channels h).closed then
    none
  else
    some { m with channels := updateAll (Chan.offer subscriberBuffer event) m.handles m.channels }

/-- `cleanupResources`: a receive that does not block removes the subscriber. -/
def cleanupResources (m : HostManager Ev) : HostManager Ev :=
  { m with
    subscribers := m.subscribers.filter fun entry => !(m.channels entry.2).ready
    channels := updateAll Chan.received m.handles m.channels }

end HostManager

/-- The subscriptions that were neither cancelled nor replaced, and for each channel the events
    that were dispatched while its buffer had room and those its subscriber received. -/
structure Record (Ev : Type) where
  live : List (GoString × Nat)
  offered : Nat → List Ev
  received : Nat → List Ev

structure Watched (Ev : Type) where
  manager : HostManager Ev
  record : Record Ev

inductive HostEvent (Ev : Type) where
  | subscribe (id : GoString)
  | unsubscribe (id : GoString)
  | dispatch (event : Ev)
  | cleanup
  | receive (h : Nat)

namespace Watched

variable {Ev : Type}

def start : Watched Ev := ⟨.newHostManager, ⟨[], fun _ => [], fun _ => []⟩⟩

def buffer (s : Watched Ev) (h : Nat) : List Ev := (s.manager.channels h).buffer

def step (s : Watched Ev) : HostEvent Ev → Option (Watched Ev)
  | .subscribe id =>
    some ⟨s.manager.subscribe id,
      { live := GoMap.set id s.manager.next s.record.live
        offered := update s.record.offered s.manager.next []
        received := update s.record.received s.manager.next [] }⟩
  | .unsubscribe id =>
    some ⟨s.manager.unsubscribe id, { s.record with live := GoMap.erase id s.record.live }⟩
  | .dispatch event =>
    (s.manager.dispatchEvent event).map fun manager =>
      ⟨manager, { s.record with
        offered := fun h =>
          if (s.buffer h).length < subscriberBuffer then s.record.offered h ++ [event]
          else s.record.offered h }⟩
  | .cleanup => some { s with manager := s.manager.cleanupResources }
  | .receive h =>
    match s.buffer h with
    | [] => if (s.manager.channels h).closed then some s else none
    | event :: _ =>
      some ⟨{ s.manager with
          channels := update s.manager.channels h (s.manager.channels h).received },
        { s.record with
          received := update s.record.received h (s.record.received h ++ [event]) }⟩

/-- Every live subscription is in the table, and what it received, with what waits in its buffer,
    is what it was offered, in that order. -/
def Delivered (s : Watched Ev) : Prop :=
  ∀ id h, GoMap.get id s.record.live = some h →
    GoMap.get id s.manager.subscribers = some h ∧
      s.record.received h ++ s.buffer h = s.record.offered h

/-- The cleanup finds no event in the buffer of a live subscription. -/
def Undisturbed (s : Watched Ev) : HostEvent Ev → Prop
  | .cleanup => ∀ id h, GoMap.get id s.record.live = some h → s.buffer h = []
  | _ => True

/-- The table only has live subscriptions; their channels are their own, and open. -/
structure Sound (s : Watched Ev) : Prop where
  keys : (GoMap.keysOf s.manager.subscribers).Nodup
  live : ∀ id h, GoMap.get id s.manager.subscribers = some h → GoMap.get id s.record.live = some h
  own : ∀ id id' h, GoMap.get id s.record.live = some h → GoMap.get id' s.record.live = some h → id = id'
  old : ∀ id h, GoMap.get id s.record.live = some h → h < s.manager.next
  isOpen : ∀ id h, GoMap.get id s.record.live = some h → (s.manager.channels h).closed = false

attribute [grind →] Sound.live Sound.own Sound.old Sound.isOpen

theorem sound_start : (start : Watched Ev).Sound where
  keys := nodup_nil
  live := nofun
  own := nofun
  old := nofun
  isOpen := nofun

section Table

variable {s : Watched Ev}

theorem Sound.mem_handles (sound : s.Sound) {h : Nat} :
    h ∈ s.manager.handles ↔ ∃ id, get id s.manager.subscribers = some h := by
  unfold HostManager.handles
  simp only [mem_map]
  constructor
  · intro found
    obtain ⟨entry, mem, same⟩ := found
    exact ⟨entry.1, get_of_mem sound.keys (same ▸ mem)⟩
  · intro found
    obtain ⟨id, found⟩ := found
    exact ⟨_, mem_of_get found, rfl⟩

theorem Sound.handles_nodup (sound : s.Sound) : s.manager.handles.Nodup := by
  refine List.Nodup.map_on (fun e mem e' mem' same => ?_) (List.Nodup.of_map _ sound.keys)
  have first := sound.live _ _ (get_of_mem sound.keys mem)
  have second := sound.live _ _ (get_of_mem sound.keys mem')
  rw [← same] at second
  exact Prod.ext (sound.own _ _ _ first second) same

theorem Sound.dispatchEvent (sound : s.Sound) (event : Ev) : s.manager.dispatchEvent event =
    some { s.manager with
      channels := updateAll (Chan.offer subscriberBuffer event) s.manager.handles s.manager.channels } := by
  have allOpen : ¬ (s.manager.handles.any fun h => (s.manager.channels h).closed) = true := by
    simp only [any_eq_true, not_exists, not_and, Bool.not_eq_true]
    intro h mem
    obtain ⟨id, found⟩ := sound.mem_handles.mp mem
    exact sound.isOpen id h (sound.live id h found)
  unfold HostManager.dispatchEvent
  simp only [if_neg allOpen]

end Table

section Step

variable {s s' : Watched Ev}

theorem Sound.subscribe (sound : s.Sound) (id : GoString)
    (taken : s.step (.subscribe id) = some s') : s'.Sound := by
  cases taken
  constructor
  case keys => exact keysOf_set_nodup sound.keys id _
  all_goals simp only [HostManager.subscribe, get_set]
  case live => grind
  case own => grind
  case old => grind
  case isOpen => grind [update_apply, Chan.fresh]

theorem Sound.unsubscribe (sound : s.Sound) (id : GoString)
    (taken : s.step (.unsubscribe id) = some s') : s'.Sound := by
  cases taken
  unfold HostManager.unsubscribe
  cases found : get id s.manager.subscribers with
  | none =>
    constructor
    case keys => exact sound.keys
    all_goals simp only [get_erase]
    case live => grind
    case own => grind
    case old => grind
    case isOpen => grind
  | some h =>
    -- the closed channel is not that of another live subscription
    constructor
    case keys => exact keysOf_filter_nodup sound.keys _
    all_goals simp only [get_erase]
    case live => grind
    case own => grind
    case old => grind
    case isOpen => grind [update_apply]

theorem Sound.keep (sound : s.Sound) (keys : (keysOf s'.manager.subscribers).Nodup)
    (table : ∀ id h, get id s'.manager.subscribers = some h →
      get id s.manager.subscribers = some h)
    (live : s'.record.live = s.record.live) (next : s'.manager.next = s.manager.next)
    (closed : ∀ h, (s'.manager.channels h).closed = (s.manager.channels h).closed) : s'.Sound := by
  constructor
  case keys => exact keys
  all_goals simp only [live, next, closed]
  case live => exact fun id h found => sound.live id h (table id h found)
  case own => exact sound.own
  case old => exact sound.old
  case isOpen => exact sound.isOpen

theorem closed_updateAll (sound : s.Sound) {f : Chan Ev → Chan Ev} (same : ∀ ch, (f ch).closed = ch.closed)
    (h : Nat) :
    (updateAll f s.manager.handles s.manager.channels h).closed = (s.manager.channels h).closed := by
  simp only [updateAll_apply _ sound.handles_nodup]
  split
  · exact same _
  · rfl

theorem Sound.step (sound : s.Sound) {e : HostEvent Ev} (taken : s.step e = some s') : s'.Sound := by
  cases e with
  | subscribe id => exact sound.subscribe id taken
  | unsubscribe id => exact sound.unsubscribe id taken
  | dispatch event =>
    simp only [Watched.step, sound.dispatchEvent, Option.map_some, Option.some.injEq] at taken
    subst taken
    exact sound.keep sound.keys (fun _ _ found => found) rfl rfl
      (closed_updateAll sound (Chan.offer_closed _ _))
  | cleanup =>
    cases taken
    exact sound.keep (keysOf_filter_nodup sound.keys _)
      (fun _ _ found => ((get_filter sound.keys _).mp found).1) rfl rfl
      (closed_updateAll sound Chan.received_closed)
  | receive h =>
    simp only [Watched.step] at taken
    split at taken
    · split at taken
      · cases taken
        exact sound
      · cases taken
    · cases taken
      refine sound.keep sound.keys (fun _ _ found => found) rfl rfl fun h' => ?_
      by_cases same : h' = h
      · subst same
        simp
      · simp [same]

theorem delivered_step (sound : s.Sound) (delivered : s.Delivered) {e : HostEvent Ev}
    (taken : s.step e = some s') : s'.Delivered ↔ s.Undisturbed e := by
  cases e with
  | subscribe id =>
    cases taken
    refine iff_of_true (fun id' h found => ?_) trivial
    simp only [HostManager.subscribe, get_set, buffer] at found ⊢
    by_cases same : id = id'
    · simp only [if_pos same, Option.some.injEq] at found ⊢
      subst found
      simp [Chan.fresh]
    · simp only [if_neg same] at found ⊢
      have older : h ≠ s.manager.next := (sound.old id' h found).ne
      simp only [update_of_ne older]
      exact delivered id' h found
  | unsubscribe id =>
    cases taken
    refine iff_of_true (fun id' h found => ?_) trivial
    simp only [get_erase] at found
    by_cases same : id = id'
    · simp only [if_pos same] at found
      cases found
    · simp only [if_neg same] at found
      unfold HostManager.unsubscribe buffer
      cases table : get id s.manager.subscribers with
      | none => exact delivered id' h found
      | some closing =>
        have other : h ≠ closing := by
          intro equal
          subst equal
          exact same (sound.own _ _ _ (sound.live _ _ table) found)
        simp only [get_erase, if_neg same, update_of_ne other]
        exact delivered id' h found
  | dispatch event =>
    simp only [Watched.step, sound.dispatchEvent, Option.map_some, Option.some.injEq] at taken
    subst taken
    refine iff_of_true (fun id h found => ?_) trivial
    obtain ⟨table, same⟩ := delivered id h found
    have mem : h ∈ s.manager.handles := sound.mem_handles.mpr ⟨id, table⟩
    refine ⟨table, ?_⟩
    unfold buffer at same ⊢
    simp only [updateAll_apply _ sound.handles_nodup, if_pos mem, Chan.offer]
    split
    · simp only [← same, append_assoc]
    · exact same
  | cleanup =>
    cases taken
    constructor
    · intro after id h found
      -- an entry that stays in the table was not ready
      obtain ⟨_, notReady⟩ := (get_filter sound.keys _).mp (after id h found).1
      exact (Chan.ready_open (sound.isOpen id h found)).mp (by simpa using notReady)
    · intro empty id h found
      obtain ⟨table, same⟩ := delivered id h found
      have none : (s.manager.channels h).buffer = [] := empty id h found
      have notReady := (Chan.ready_open (sound.isOpen id h found)).mpr none
      have mem : h ∈ s.manager.handles := sound.mem_handles.mpr ⟨id, table⟩
      refine ⟨(get_filter sound.keys _).mpr ⟨table, by simp [notReady]⟩, ?_⟩
      unfold buffer at same ⊢
      simp only [HostManager.cleanupResources, updateAll_apply _ sound.handles_nodup, if_pos mem,
        Chan.received, none, tail_nil] at same ⊢
      exact same
  | receive taker =>
    simp only [Watched.step] at taken
    split at taken
    · split at taken
      · cases taken
        exact iff_of_true delivered trivial
      · cases taken
    · rename_i event rest waiting
      cases taken
      refine iff_of_true (fun id h found => ?_) trivial
      obtain ⟨table, same⟩ := delivered id h found
      refine ⟨table, ?_⟩
      unfold buffer at same waiting ⊢
      by_cases mine : h = taker
      · subst mine
        simpa [Chan.received, waiting] using same
      · simpa [mine] using same

end Step

/-- Every subscriber gets what it was offered exactly when no cleanup comes while an event waits in
    the buffer of a live subscription. -/
theorem run_delivered_iff (events : List (HostEvent Ev)) :
    Throughout step Delivered (start : Watched Ev) events ↔
      EachStep step Undisturbed (start : Watched Ev) events :=
  throughout_iff Sound (fun _ _ _ sound _ taken _ => sound.step taken)
    (fun _ _ _ sound delivered taken => delivered_step sound delivered taken) events
    sound_start nofun

/-- The cleanup takes the event that waits for the subscriber, and the subscription with it. -/
theorem cleanup_drops_subscriber :
    (∃ s : Watched Nat, [HostEvent.subscribe (ascii "ui"), .dispatch 7, .cleanup].foldlM step start =
        some s ∧
      GoMap.get (ascii "ui") s.record.live = some 0 ∧
      GoMap.get (ascii "ui") s.manager.subscribers = none ∧
      s.record.offered 0 = [7] ∧ s.record.received 0 = [] ∧ s.buffer 0 = []) ∧
    ¬ Throughout step Delivered (start : Watched Nat)
      [.subscribe (ascii "ui"), .dispatch 7, .cleanup] := by
  refine ⟨⟨_, rfl, by decide +kernel, by decide +kernel, by decide +kernel, by decide +kernel,
    by decide +kernel⟩, not_throughout rfl fun delivered => ?_⟩
  have kept := (delivered (ascii "ui") 0 (by decide +kernel)).1
  exact absurd kept (by decide +kernel)

end Watched

end Monitor.Host
