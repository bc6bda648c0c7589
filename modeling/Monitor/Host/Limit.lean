import Monitor.Host.Calls

/-! # The limit on the number of hosts

`AddHost` compares the number of registered hosts with the limit and registers its host later,
so calls that passed the check and have not registered yet are not counted. The identifiers
that are registered or will be, `reserved`, never become fewer; the limit holds when they fit
at every check that is passed, and where every call has registered it holds only then.
-/

namespace Monitor.Host

open GoText Runs List GoMap HostRegistry Finset

/-- The identifier that a call behind its limit check is about to register. -/
def Caller.admits {F : Type} : Caller F → Option GoString
  | ⟨.addHost hostID _, .checked⟩ => some hostID
  | _ => none

namespace Managed

variable {F : Type}

def admitted (s : Managed F) : List GoString := s.callers.filterMap Caller.admits

def reserved (s : Managed F) : Finset GoString :=
  (GoMap.keysOf s.registry.hosts).toFinset ∪ s.admitted.toFinset

def WithinLimit (maxHosts : Int) (s : Managed F) : Prop := s.registry.getHostCount ≤ maxHosts

def Reservable (maxHosts : Int) (s : Managed F) : Prop := s.reserved.card ≤ maxHosts

/-- A call of `AddHost` that passes the check fits beside what is registered and admitted. -/
def Fits (maxHosts : Int) (s : Managed F) : CallEvent F → Prop
  | .advance k _ => ∀ hostID host, s.callers[k]? = some ⟨.addHost hostID host, .begun⟩ →
      s.registry.getHostCount < maxHosts → (insert hostID s.reserved).card ≤ maxHosts
  | _ => True

section Steps

variable {maxHosts : Int} {s s' : Managed F} {k : Nat} {hostID : GoString}

theorem mem_admitted :
    hostID ∈ s.admitted ↔ s.Has fun caller => caller.admits = some hostID := by
  rw [has_iff_mem]
  exact mem_filterMap

theorem mem_reserved :
    hostID ∈ s.reserved ↔ hostID ∈ keysOf s.registry.hosts ∨
      s.Has fun caller => caller.admits = some hostID := by
  simp only [reserved, mem_union, mem_toFinset, mem_admitted]

theorem mem_reserved_goto {caller : Caller F} (here : s.callers[k]? = some caller) (phase : CallPhase)
    (registry : HostRegistry F) (eventChan : List ManagerEvent) (hostID : GoString) :
    hostID ∈ ({ s with registry := registry, eventChan := eventChan }.goto k phase).reserved ↔
      hostID ∈ keysOf registry.hosts ∨ Caller.admits { caller with phase := phase } = some hostID ∨
        s.Beside k fun other => other.admits = some hostID :=
  mem_reserved.trans (or_congr_right (has_goto here phase))

theorem reserved_goto_same {caller : Caller F} (here : s.callers[k]? = some caller) {phase : CallPhase}
    (idle : caller.admits = none) (still : Caller.admits { caller with phase := phase } = none)
    {registry : HostRegistry F} {eventChan : List ManagerEvent}
    (keys : ∀ hostID, hostID ∈ keysOf registry.hosts ↔ hostID ∈ keysOf s.registry.hosts) :
    ({ s with registry := registry, eventChan := eventChan }.goto k phase).reserved = s.reserved := by
  ext hostID
  rw [mem_reserved_goto here, mem_reserved, has_iff here, keys, idle, still]

variable {host : HostInfo F} {e : CallEvent F}

theorem reserved_admitted (here : s.callers[k]? = some ⟨.addHost hostID host, .begun⟩) :
    (s.goto k .checked).reserved = insert hostID s.reserved := by
  ext other
  have after := mem_reserved_goto here .checked s.registry s.eventChan other
  rw [after, mem_insert, mem_reserved, has_iff here]
  simp only [Caller.admits, Option.some.injEq, reduceCtorEq, false_or, eq_comm (a := hostID)]
  exact or_left_comm

theorem reserved_registered {now : Int}
    (here : s.callers[k]? = some ⟨.addHost hostID host, .checked⟩) :
    ({ s with registry := s.registry.registerHost hostID host now }.goto k .sending).reserved =
      s.reserved := by
  ext other
  have after := mem_reserved_goto here .sending (s.registry.registerHost hostID host now) s.eventChan other
  rw [after, mem_reserved, has_iff here, mem_keysOf_registerHost]
  simp only [Caller.admits, Option.some.injEq, reduceCtorEq, false_or, eq_comm (a := hostID)]
  exact or_assoc.trans or_left_comm

theorem keysOf_set_found {hosts : List (GoString × HostInfo F)}
    (found : get hostID hosts = some host) (changed : HostInfo F) (other : GoString) :
    other ∈ keysOf (set hostID changed hosts) ↔ other ∈ keysOf hosts := by
  have mem : hostID ∈ keysOf hosts := get_isSome_iff.mp (Option.isSome_of_eq_some found)
  rw [mem_keysOf_set]
  constructor
  · rintro (rfl | known)
    · exact mem
    · exact known
  · exact .inr

theorem advance_reserved {now : Int} (pos : 0 < maxHosts) (taken : Advanced maxHosts s k now s') :
    (∃ hostID host, s.callers[k]? = some ⟨.addHost hostID host, .begun⟩ ∧
        s.registry.getHostCount < maxHosts ∧ s'.reserved = insert hostID s.reserved) ∨
      s'.reserved = s.reserved ∧ s.Fits maxHosts (.advance k now) := by
  cases taken with
  | refused here full =>
    refine .inr ⟨reserved_goto_same here rfl rfl fun _ => Iff.rfl, fun _ _ _ room => ?_⟩
    exact absurd room (not_lt.mpr full.2)
  | admitted here room =>
    have below : s.registry.getHostCount < maxHosts := by
      by_contra full
      exact room ⟨pos, not_lt.mp full⟩
    exact .inl ⟨_, _, here, below, reserved_admitted here⟩
  | registered here =>
    exact .inr ⟨reserved_registered here, fun _ _ other => by simp [here] at other⟩
  | locked here _ =>
    exact .inr ⟨reserved_goto_same here rfl rfl fun _ => Iff.rfl, fun _ _ other => by simp [here] at other⟩
  | missing here _ =>
    exact .inr ⟨reserved_goto_same here rfl rfl fun _ => Iff.rfl, fun _ _ other => by simp [here] at other⟩
  | updated here found =>
    exact .inr ⟨reserved_goto_same here rfl rfl fun other => keysOf_set_found found _ other,
      fun _ _ other => by simp [here] at other⟩
  | failed here =>
    exact .inr ⟨reserved_goto_same here rfl rfl fun _ => Iff.rfl, fun _ _ other => by simp [here] at other⟩
  | maintained here ok =>
    obtain ⟨host, found, rfl⟩ := update_ok ok
    exact .inr ⟨reserved_goto_same here rfl rfl fun other => keysOf_set_found found _ other,
      fun _ _ other => by simp [here] at other⟩
  | sent here _ =>
    refine .inr ⟨reserved_goto_same here ?_ ?_ fun _ => Iff.rfl, fun _ _ other => by simp [here] at other⟩
    · unfold Caller.admits
      split <;> simp_all
    · unfold Caller.admits
      split <;> simp_all

theorem step_reserved (pos : 0 < maxHosts) (taken : s.step maxHosts e = some s') :
    (∃ k now hostID host, e = .advance k now ∧ s.callers[k]? = some ⟨.addHost hostID host, .begun⟩ ∧
        s.registry.getHostCount < maxHosts ∧ s'.reserved = insert hostID s.reserved) ∨
      s'.reserved = s.reserved ∧ s.Fits maxHosts e := by
  cases step_cases taken with
  | called call =>
    refine .inr ⟨?_, trivial⟩
    ext hostID
    have idle : Caller.admits ⟨call, .begun⟩ ≠ some hostID := by cases call <;> nofun
    rw [mem_reserved, mem_reserved, has_call idle]
  | advanced moved =>
    rcases advance_reserved pos moved with ⟨hostID, host, added⟩ | kept
    · exact .inl ⟨_, _, hostID, host, rfl, added⟩
    · exact .inr kept
  | received | rlocked | dispatched | subscribed | unsubscribed | cleaned => exact .inr ⟨rfl, trivial⟩

theorem step_reservable (pos : 0 < maxHosts) (within : s.Reservable maxHosts)
    (taken : s.step maxHosts e = some s') : s'.Reservable maxHosts ↔ s.Fits maxHosts e := by
  rcases step_reserved pos taken with ⟨k, now, hostID, host, rfl, here, below, added⟩ | ⟨same, fits⟩
  · unfold Reservable
    rw [added]
    constructor
    · intro fits hostID' host' here' _
      cases here.symm.trans here'
      exact fits
    · exact fun fits => fits hostID host here below
  · unfold Reservable at within ⊢
    rw [same]
    exact iff_of_true within fits

theorem step_reserved_grows (pos : 0 < maxHosts) (taken : s.step maxHosts e = some s') :
    s.reserved ⊆ s'.reserved := by
  rcases step_reserved pos taken with ⟨_, _, hostID, _, _, _, _, added⟩ | ⟨same, _⟩
  · rw [added]
    exact subset_insert hostID s.reserved
  · rw [same]

theorem step_isMap (isMap : s.registry.IsMap) (taken : s.step maxHosts e = some s') :
    s'.registry.IsMap := by
  cases step_cases taken with
  | advanced moved =>
    cases moved with
    | registered | updated => exact keysOf_set_nodup isMap _ _
    | maintained here ok =>
      obtain ⟨host, _, rfl⟩ := update_ok ok
      exact keysOf_set_nodup isMap _ _
    | refused | admitted | locked | missing | failed | sent => exact isMap
  | called | received | rlocked | dispatched | subscribed | unsubscribed | cleaned => exact isMap

end Steps

variable {s : Managed F}

theorem isMap_card (isMap : s.registry.IsMap) :
    (keysOf s.registry.hosts).toFinset.card = s.registry.getHostCount := by
  rw [toFinset_card_of_nodup isMap]
  exact length_map _

theorem getHostCount_le_reserved (isMap : s.registry.IsMap) :
    s.registry.getHostCount ≤ s.reserved.card := by
  rw [← isMap_card isMap]
  exact card_le_card subset_union_left

theorem reserved_of_settled (isMap : s.registry.IsMap) (settled : s.admitted = []) :
    s.reserved.card = s.registry.getHostCount := by
  unfold reserved
  rw [settled, toFinset_nil, union_empty, isMap_card isMap]

theorem isMap_throughout (maxHosts : Int) (offlineTimeout : Int) (events : List (CallEvent F)) :
    Throughout (step maxHosts) (fun s => s.registry.IsMap) (start offlineTimeout) events := by
  refine throughout_of_kept (fun s : Managed F => s.registry.IsMap) (fun _ isMap => isMap) ?_ events ?_
  · exact fun _ _ _ isMap taken => step_isMap isMap taken
  · exact nodup_nil

theorem reservable_iff {maxHosts : Int} (pos : 0 < maxHosts) (offlineTimeout : Int)
    (events : List (CallEvent F)) :
    Throughout (step maxHosts) (Reservable maxHosts) (start offlineTimeout) events ↔
      EachStep (step maxHosts) (Fits maxHosts) (start offlineTimeout) events := by
  refine throughout_iff (fun _ => True) (fun _ _ _ _ _ _ _ => trivial)
    (fun _ _ _ _ within taken => step_reservable pos within taken) events trivial ?_
  exact le_of_lt pos

/-- A run in which every passed check leaves room for what is admitted keeps the limit, and where
    every admitted host has been registered no other run does. -/
theorem withinLimit_iff_fits {maxHosts : Int} (positive : 0 < maxHosts) (offlineTimeout : Int)
    (events : List (CallEvent F)) :
    (EachStep (step maxHosts) (Fits maxHosts) (start offlineTimeout) events →
      Throughout (step maxHosts) (WithinLimit maxHosts) (start offlineTimeout) events) ∧
    ∀ s : Managed F, events.foldlM (step maxHosts) (start offlineTimeout) = some s → s.admitted = [] →
      (Throughout (step maxHosts) (WithinLimit maxHosts) (start offlineTimeout) events ↔
        EachStep (step maxHosts) (Fits maxHosts) (start offlineTimeout) events) := by
  have isMap := isMap_throughout maxHosts offlineTimeout events
  have enough : EachStep (step maxHosts) (Fits maxHosts) (start offlineTimeout) events →
      Throughout (step maxHosts) (WithinLimit maxHosts) (start offlineTimeout) events := by
    intro fits
    have both := ((reservable_iff positive offlineTimeout events).mpr fits).and isMap
    refine both.mono fun s ⟨reservable, isMap⟩ => ?_
    exact le_trans (Int.ofNat_le.mpr (getHostCount_le_reserved isMap)) reservable
  refine ⟨enough, fun last run settled => ⟨fun within => ?_, enough⟩⟩
  -- Everything that is reserved on the way is registered at the end.
  have grows := (throughout_before (R := fun a b : Managed F => a.reserved ⊆ b.reserved)
    (fun _ => subset_rfl) subset_trans (step_reserved_grows positive) run).1
  refine (reservable_iff positive offlineTimeout events).mp (grows.mono fun s below => ?_)
  calc (s.reserved.card : Int) ≤ last.reserved.card := Int.ofNat_le.mpr (Finset.card_le_card below)
    _ = last.registry.getHostCount := by rw [reserved_of_settled (isMap.last run) settled]
    _ ≤ maxHosts := within.last run

/-- Two calls of `AddHost`, both checks before both registrations. -/
def together : List (CallEvent Unit) :=
  [.call (.addHost (ascii "a") (HostRegistry.newHost Unit 0)),
    .call (.addHost (ascii "b") (HostRegistry.newHost Unit 0)),
    .advance 0 0, .advance 1 0, .advance 0 0, .advance 1 0]

instance (maxHosts : Int) (s : Managed F) : Decidable (Reservable maxHosts s) :=
  inferInstanceAs (Decidable (_ ≤ maxHosts))

/-- A limit of two hosts has room for both. -/
theorem withinLimit_iff_fits_together :
    EachStep (step 2) (Fits 2) (start 0 : Managed Unit) together ∧
      Throughout (step 2) (WithinLimit 2) (start 0 : Managed Unit) together := by
  have reservable : Throughout (step 2) (Reservable 2) (start 0 : Managed Unit) together := by
    iterate 6
      refine ⟨by decide +kernel, fun s taken => ?_⟩
      cases taken
    change Reservable 2 _
    decide +kernel
  have fits := (reservable_iff (by decide) 0 together).mp reservable
  exact ⟨fits, (withinLimit_iff_fits (by decide) 0 together).1 fits⟩

/-- Both calls find no host and both register theirs. -/
theorem together_exceeds : ¬ Throughout (step 1) (WithinLimit 1) (start 0 : Managed Unit) together := by
  refine not_throughout rfl ?_
  unfold WithinLimit
  decide

end Managed

end Monitor.Host
