import Monitor.Host.Calls

/-! # The event path of the host manager

`UpdateHost` waits at the event channel with the mutex of the manager locked, and behind every
event the dispatcher waits for that mutex. When the channel is full and the dispatcher has an
event in hand, neither can go on, and nothing that the other callers do helps.
-/

namespace Monitor.Host

open GoText Runs List

/-- The call is at its send and holds `m.mu`. -/
def Caller.sendsHolding {F : Type} : Caller F → Bool
  | ⟨.updateHost _ _, .sending⟩ => true
  | _ => false

theorem Caller.holds_of_sendsHolding {F : Type} {caller : Caller F} (sends : caller.sendsHolding) :
    caller.holds := by
  unfold Caller.sendsHolding at sends
  split at sends
  · rfl
  · cases sends

def Dispatcher.isWaiting : Dispatcher → Bool
  | .waiting _ => true
  | .select | .reading _ => false

namespace Managed

variable {F : Type}

/-- No event can be sent before the dispatcher has had the mutex. -/
def Jammed (s : Managed F) : Prop := s.eventChan.length = eventChanSize ∧ s.dispatcher.isWaiting

/-- A call is blocked on the full channel and holds the mutex that the dispatcher is waiting for. -/
def Standoff (s : Managed F) : Prop := s.Jammed ∧ s.Has fun caller => caller.sendsHolding

def Harmless (s : Managed F) : CallEvent F → Prop
  | .advance k _ =>
    (∀ hostID updates host, s.callers[k]? = some ⟨.updateHost hostID updates, .locked⟩ →
      s.registry.getHost hostID = some host → (applyUpdates updates host).2 → ¬ s.Jammed) ∧
    ∀ call, s.callers[k]? = some ⟨call, .sending⟩ → s.eventChan.length + 1 = eventChanSize →
      s.dispatcher.isWaiting → ¬ s.Beside k fun other => other.sendsHolding
  | _ => True

section Steps

variable {maxHosts : Int} {s s' : Managed F} {k : Nat}

theorem not_standoff_goto {caller : Caller F} (here : s.callers[k]? = some caller) {phase : CallPhase}
    (quiet : Caller.sendsHolding { caller with phase := phase } = false) (registry : HostRegistry F)
    (before : ¬ s.Standoff) : ¬ ({ s with registry := registry }.goto k phase).Standoff := by
  intro ⟨jammed, held⟩
  refine before ⟨jammed, (has_iff here).mpr (.inr ?_)⟩
  have after := (has_goto (s := { s with registry := registry }) here phase).mp held
  exact after.resolve_left (by simp [quiet])

theorem harmless_of_phase {call : Call F} {phase : CallPhase} {now : Int}
    (here : s.callers[k]? = some ⟨call, phase⟩) (unlocked : phase ≠ .locked) (unsent : phase ≠ .sending) :
    s.Harmless (.advance k now) := by
  refine ⟨fun _ _ _ found => ?_, fun _ found => ?_⟩
  · cases here.symm.trans found
    exact absurd rfl unlocked
  · cases here.symm.trans found
    exact absurd rfl unsent

theorem advance_standoff {now : Int} (before : ¬ s.Standoff) (moved : Advanced maxHosts s k now s') :
    ¬ s'.Standoff ↔ s.Harmless (.advance k now) := by
  cases moved with
  | refused here _ | admitted here _ =>
    exact iff_of_true (not_standoff_goto here rfl s.registry before) (harmless_of_phase here nofun nofun)
  | registered here =>
    exact iff_of_true (not_standoff_goto here rfl _ before) (harmless_of_phase here nofun nofun)
  | locked here _ =>
    exact iff_of_true (not_standoff_goto here rfl s.registry before) (harmless_of_phase here nofun nofun)
  | missing here absent =>
    refine iff_of_true (not_standoff_goto here rfl s.registry before) ⟨fun _ _ _ found known => ?_, ?_⟩
    · cases here.symm.trans found
      simp [absent] at known
    · intro call found
      cases here.symm.trans found
  | failed here =>
    exact iff_of_true (not_standoff_goto here rfl s.registry before) (harmless_of_phase here nofun nofun)
  | maintained here _ =>
    exact iff_of_true (not_standoff_goto here rfl _ before) (harmless_of_phase here nofun nofun)
  | @updated hostID updates host here found =>
    cases applied : (applyUpdates updates host).2 with
    | false =>
      refine iff_of_true (not_standoff_goto here rfl _ before) ⟨fun _ _ _ other known ok => ?_, ?_⟩
      · cases here.symm.trans other
        cases found.symm.trans known
        simp [applied] at ok
      · intro call other
        cases here.symm.trans other
    | true =>
      -- The call is at its send now, with the mutex.
      have held := (has_goto (P := fun caller => caller.sendsHolding) here .sending).mpr (.inl rfl)
      constructor
      · intro after
        refine ⟨fun _ _ _ _ _ _ jammed => after ⟨jammed, held⟩, fun call other => ?_⟩
        cases here.symm.trans other
      · exact fun harmless ⟨jammed, _⟩ => harmless.1 hostID updates host here found applied jammed
  | @sent call here room =>
    have others := has_goto (P := fun caller => caller.sendsHolding)
      (s := { s with eventChan := s.eventChan ++ [call.event] }) here (.returned none)
    have quiet : Caller.sendsHolding ⟨call, .returned none⟩ = false := by cases call <;> rfl
    have grown : (s.eventChan ++ [call.event]).length = s.eventChan.length + 1 := length_append
    constructor
    · intro after
      refine ⟨fun _ _ _ other => ?_, fun _ _ last waits beside => ?_⟩
      · cases here.symm.trans other
      · exact after ⟨⟨grown.trans last, waits⟩, others.mpr (.inr beside)⟩
    · intro harmless ⟨⟨full, waits⟩, held⟩
      have beside := (others.mp held).resolve_left (by simp [quiet])
      exact harmless.2 call here (grown.symm.trans full) waits beside

variable {e : CallEvent F}

theorem step_standoff (bounded : s.eventChan.length ≤ eventChanSize) (before : ¬ s.Standoff)
    (taken : s.step maxHosts e = some s') : ¬ s'.Standoff ↔ s.Harmless e := by
  cases step_cases taken with
  | called call =>
    have begun : ¬ Caller.sendsHolding ⟨call, .begun⟩ := by cases call <;> nofun
    exact iff_of_true (fun ⟨jammed, held⟩ => before ⟨jammed, (has_call begun).mp held⟩) trivial
  | advanced moved => exact advance_standoff before moved
  | received idle front =>
    refine iff_of_true (fun ⟨⟨full, _⟩, _⟩ => ?_) trivial
    rw [front, length_cons, ← full] at bounded
    exact absurd bounded (Nat.not_succ_le_self _)
  | rlocked | dispatched => exact iff_of_true (fun ⟨⟨_, waits⟩, _⟩ => nomatch waits) trivial
  | subscribed | unsubscribed | cleaned => exact iff_of_true before trivial

theorem step_bounded (bounded : s.eventChan.length ≤ eventChanSize)
    (taken : s.step maxHosts e = some s') : s'.eventChan.length ≤ eventChanSize := by
  cases step_cases taken with
  | advanced moved =>
    cases moved with
    | sent here room =>
      calc _ = s.eventChan.length + 1 := length_append
        _ ≤ eventChanSize := room
    | refused | admitted | registered | locked | missing | updated | failed | maintained => exact bounded
  | received idle front =>
    rw [front, length_cons] at bounded
    exact Nat.le_of_succ_le bounded
  | called | rlocked | dispatched | subscribed | unsubscribed | cleaned => exact bounded

theorem Standoff.lasts (standoff : s.Standoff) (taken : s.step maxHosts e = some s') : s'.Standoff := by
  obtain ⟨⟨full, waits⟩, j, caller, found, held⟩ := standoff
  cases step_cases taken with
  | called call =>
    refine ⟨⟨full, waits⟩, j, caller, ?_, held⟩
    exact (getElem?_append_left (List.getElem?_eq_some_iff.mp found).1).trans found
  | @advanced k _ _ moved =>
    have elsewhere : ∀ {other : Caller F}, s.callers[k]? = some other → ¬ other.sendsHolding → j ≠ k := by
      rintro other here free rfl
      cases found.symm.trans here
      exact free held
    have stays : ∀ {registry : HostRegistry F} {phase : CallPhase}, j ≠ k →
        ({ s with registry := registry }.goto k phase).Standoff := fun apart =>
      ⟨⟨full, waits⟩, j, caller, (callers_goto_other _ apart _).trans found, held⟩
    cases moved with
    | refused here _ | admitted here _ | locked here _ | missing here _ | failed here | registered here
      | updated here _ | maintained here _ => exact stays (elsewhere here nofun)
    | sent here room => exact absurd full (Nat.ne_of_lt room)
  | received idle _ => simp [idle, Dispatcher.isWaiting] at waits
  | rlocked _ unheld =>
    have holds := any_eq_true.mpr
      ⟨caller, mem_of_getElem? found, Caller.holds_of_sendsHolding held⟩
    simp [unheld] at holds
  | dispatched reads _ => simp [reads, Dispatcher.isWaiting] at waits
  | subscribed | unsubscribed | cleaned => exact ⟨⟨full, waits⟩, j, caller, found, held⟩

end Steps

/-- Exactly the runs of harmless sections never come to a standoff. -/
theorem no_standoff_iff_harmless (maxHosts offlineTimeout : Int) (events : List (CallEvent F)) :
    Throughout (step maxHosts) (fun s => ¬ s.Standoff) (start offlineTimeout) events ↔
      EachStep (step maxHosts) Harmless (start offlineTimeout) events := by
  refine throughout_iff (fun s => s.eventChan.length ≤ eventChanSize) ?_ ?_ events (Nat.zero_le _) ?_
  · exact fun _ _ _ bounded _ taken _ => step_bounded bounded taken
  · exact fun _ _ _ bounded before taken => step_standoff bounded before taken
  · exact fun ⟨⟨full, _⟩, _⟩ => nomatch full

/-- A call of `SetHostMaintenance`, the `k`th of all calls, from beginning to end. -/
def maintenanceCall (k : Nat) : List (CallEvent Unit) :=
  [.call (.setHostMaintenance (ascii "a") true), .advance k 0, .advance k 0]

/-- The dispatcher takes the first event; a hundred others fill the channel before it locks the
    mutex, and an `UpdateHost` comes before it, too. -/
def crowded : List (CallEvent Unit) :=
  .call (.addHost (ascii "a") (HostRegistry.newHost Unit 0)) :: .advance 0 0 :: .advance 0 0 ::
    .advance 0 0 :: .receive :: (List.range 100).foldr (fun k later => maintenanceCall (k + 1) ++ later)
      [.call (.updateHost (ascii "a") []), .advance 101 0, .advance 101 0]

/-- The standoff at the end of `crowded`, in a form that can be evaluated. -/
def stuckAt (s : Managed Unit) (k : Nat) : Bool :=
  s.eventChan.length = eventChanSize && s.dispatcher.isWaiting && s.callers[k]?.any Caller.sendsHolding

theorem stuckAt_standoff {s : Managed Unit} {k : Nat} (stuck : s.stuckAt k) : s.Standoff := by
  simp only [stuckAt, Bool.and_eq_true, decide_eq_true_eq, Option.any_eq_true] at stuck
  obtain ⟨jammed, caller, found, held⟩ := stuck
  exact ⟨jammed, k, caller, found, held⟩

theorem crowded_stuck :
    ¬ Throughout (step 0) (fun s => ¬ s.Standoff) (start 0 : Managed Unit) crowded := by
  have stuck : (crowded.foldlM (step 0) (start 0 : Managed Unit)).any (stuckAt · 101) := by decide +kernel
  obtain ⟨s, run, stuck⟩ := (Option.any_eq_true ..).mp stuck
  exact not_throughout run (not_not_intro (stuckAt_standoff stuck))

end Managed

end Monitor.Host
