import Monitor.Agent.Registry
import Monitor.Lib.Runs

/-! # Health checks and retries of the agent

`performHealthChecks` copies the hosts and then probes them one after the other without the lock, which it
only takes to change a status; `retryFailedHosts` holds the lock from its beginning to its end. Both
keep the number of failed checks in `failedHosts`, which no lock protects: between a probe of the one and
what it does to `failedHosts` the other may go on. So a probe is one step, and so is every access to
`failedHosts` and every section with the lock; the calls of the registry come in between.

`UnregisterHost` leaves the count of the host behind. Beside the state of the program there is the number
of checks that have failed in a row since the registration of a host began, and each copy knows whether
it is of that registration.
-/

namespace Monitor.Agent

open GoText GoMap Runs List Function

/-- A host that a round of checks has still to probe. -/
structure Copy where
  host : HostInfo
  current : Bool

/-- Where `performHealthChecks` is in its loop: in front of the next host, or behind a probe that succeeded
    (the status is still to be changed, or the count to be deleted) or failed (the count is still to be
    raised, to be compared, or the host to be marked as offline). -/
inductive CheckPc where
  | next
  | answered (hostID : GoString)
  | clearing (hostID : GoString)
  | failed (hostID : GoString)
  | counted (hostID : GoString)
  | marking (hostID : GoString)
  deriving DecidableEq

/-- The host whose failed probe is not dealt with to the end. -/
def CheckPc.failing : CheckPc → Option GoString
  | .failed hostID | .counted hostID | .marking hostID => some hostID
  | _ => none

def CheckPc.marks : CheckPc → Option GoString
  | .marking hostID => some hostID
  | _ => none

theorem CheckPc.marks_eq_some {pc : CheckPc} {hostID : GoString} :
    pc.marks = some hostID ↔ pc = .marking hostID := by
  cases pc with
  | marking other => simp [marks]
  | next | answered _ | clearing _ | failed _ | counted _ => simp [marks]

def CheckPc.recovering : CheckPc → Option GoString
  | .answered hostID | .clearing hostID => some hostID
  | _ => none

/-- Where `retryFailedHosts` is in its loop: in front of the next host, about to delete the count of a host
    that is not stored, about to dial, behind a dial that succeeded, or about to send the event. -/
inductive RetryPc where
  | next
  | unknown (hostID : GoString)
  | dialling (hostID : GoString) (place : Nat)
  | answered (hostID : GoString) (place : Nat)
  | sending (place : Nat)
  deriving DecidableEq

/-- What is left of a round of retries. -/
structure Retries where
  left : List GoString
  pc : RetryPc

def RetryPc.dials : RetryPc → Option (GoString × Nat)
  | .dialling hostID place => some (hostID, place)
  | _ => none

def RetryPc.recovering : RetryPc → Option GoString
  | .answered hostID _ => some hostID
  | _ => none

/-- The registry, the counts, what is left of a round of checks and where it is, the round of retries, and
    the failed checks in a row. -/
structure Checked where
  registry : HostRegistry
  failedHosts : List (GoString × Nat)
  round : List Copy
  checking : CheckPc
  retrying : Option Retries
  streak : GoString → Nat

/-- A step of `performHealthChecks` or of `retryFailedHosts` comes with the outcome of the dial, if it is one,
    and the time. -/
inductive CheckEvent where
  | call (c : HostRegistry.Call)
  | performHealthChecks (order : List (GoString × Nat))
  | check (dial : Bool) (now : Int)
  | retryFailedHosts (order : List GoString)
  | retry (dial : Bool) (now : Int)

/-- Nothing is dialled without a port. -/
def checkHostHealth (dial : Bool) (host : HostInfo) : Bool := decide (0 < host.port) && dial

def maxRetries : Nat := 3

def HostRegistry.Call.locks : HostRegistry.Call → Bool
  | .assign _ _ => false
  | .handleEvent => false
  | _ => true

/-- The identifier whose registration begins with a call. Whether it does where the identifier is stored is
    left open. -/
def HostRegistry.begins (renews : Bool) (maxHosts : Int) (r : HostRegistry) : HostRegistry.Call →
    Option GoString
  | .registerHost (some place) now =>
    if (r.registerHost maxHosts (some place) now).any (fun result => result.1.isOk) ∧
        (renews ∨ get (r.heap place).id r.hosts = none) then
      some (r.heap place).id
    else none
  | _ => none

namespace Checked

/-- A registration begins: no check of it has failed, and the copies are of an older one. -/
def restart (s : Checked) (hostID : GoString) : Checked :=
  { s with
    streak := update s.streak hostID 0
    round := s.round.map fun c => if c.host.id = hostID then { c with current := false } else c }

/-- The count of a host that has none is zero. -/
def countOf (s : Checked) (hostID : GoString) : Nat := (get hostID s.failedHosts).getD 0

section Steps

variable (renews : Bool) (maxHosts : Int) (localID : GoString)

def called (s : Checked) (c : HostRegistry.Call) : Option Checked :=
  if c.locks ∧ s.retrying.isSome then none
  else
    (s.registry.call maxHosts c).map fun registry =>
      match s.registry.begins renews maxHosts c with
      | none => { s with registry := registry }
      | some hostID => { s with registry := registry }.restart hostID

/-- The beginning of `performHealthChecks`, in some order of the table. -/
def performHealthChecks (s : Checked) (order : List (GoString × Nat)) : Option Checked :=
  if s.round = [] ∧ s.checking = .next ∧ s.retrying.isNone ∧ order.Perm s.registry.hosts then
    some { s with round := order.map fun entry => ⟨s.registry.heap entry.2, true⟩ }
  else none

/-- The next host of `performHealthChecks` is skipped or probed. -/
def probe (s : Checked) (dial : Bool) : Option Checked :=
  match s.round with
  | [] => none
  | c :: rest =>
    if c.host.id = localID then some { s with round := rest }
    else if checkHostHealth dial c.host then
      some { s with
        round := rest
        checking := .answered c.host.id
        streak := update s.streak c.host.id 0 }
    else
      some { s with
        round := rest
        checking := .failed c.host.id
        streak := if c.current then update s.streak c.host.id (s.streak c.host.id + 1) else s.streak }

/-- `UpdateHostStatus` in a round of checks, which goes on at `pc`. -/
def changeStatus (s : Checked) (hostID status errorMsg : GoString) (now : Int) (pc : CheckPc) :
    Option Checked :=
  if s.retrying.isSome then none
  else
    (s.registry.updateHostStatus hostID status errorMsg now).map fun result =>
      { s with registry := result.2, checking := pc }

/-- One step of the loop of `performHealthChecks`. -/
def check (s : Checked) (dial : Bool) (now : Int) : Option Checked :=
  match s.checking with
  | .next => s.probe localID dial
  | .answered hostID => s.changeStatus hostID online [] now (.clearing hostID)
  | .clearing hostID => some { s with failedHosts := erase hostID s.failedHosts, checking := .next }
  | .failed hostID =>
    some { s with failedHosts := set hostID (s.countOf hostID + 1) s.failedHosts, checking := .counted hostID }
  | .counted hostID =>
    some { s with checking := if s.countOf hostID ≥ maxRetries then .marking hostID else .next }
  | .marking hostID => s.changeStatus hostID offline (utf8 "健康检查失败") now .next

/-- The beginning of `retryFailedHosts`. Hosts that are added to the counts meanwhile may come in the order
    or not. -/
def retryFailedHosts (s : Checked) (order : List GoString) : Option Checked :=
  if s.retrying.isNone ∧ order.Nodup ∧ (keysOf s.failedHosts).all order.contains then
    some { s with retrying := some ⟨order, .next⟩ }
  else none

/-- What the loop of `retryFailedHosts` finds of a host. -/
def visit (s : Checked) (hostID : GoString) : RetryPc :=
  match get hostID s.failedHosts with
  | none => .next
  | some retryCount =>
    if retryCount ≥ maxRetries then .next
    else
      match get hostID s.registry.hosts with
      | none => .unknown hostID
      | some place => .dialling hostID place

/-- One step of the loop of `retryFailedHosts`, or its end. -/
def retry (s : Checked) (dial : Bool) (now : Int) : Option Checked :=
  match s.retrying with
  | none => none
  | some ⟨[], .next⟩ => some { s with retrying := none }
  | some ⟨hostID :: left, .next⟩ => some { s with retrying := some ⟨left, s.visit hostID⟩ }
  | some ⟨left, .unknown hostID⟩ =>
    some { s with failedHosts := erase hostID s.failedHosts, retrying := some ⟨left, .next⟩ }
  | some ⟨left, .dialling hostID place⟩ =>
    if checkHostHealth dial (s.registry.heap place) then
      some { s with
        retrying := some ⟨left, .answered hostID place⟩
        streak := update s.streak hostID 0 }
    else some { s with retrying := some ⟨left, .next⟩ }
  | some ⟨left, .answered hostID place⟩ =>
    some { s with
      registry := s.registry.setOnline place now
      failedHosts := erase hostID s.failedHosts
      retrying := some ⟨left, .sending place⟩ }
  | some ⟨left, .sending place⟩ =>
    (s.registry.send ⟨.update, place, now⟩).map fun registry =>
      { s with registry := registry, retrying := some ⟨left, .next⟩ }

def step (s : Checked) : CheckEvent → Option Checked
  | .call c => s.called renews maxHosts c
  | .performHealthChecks order => s.performHealthChecks order
  | .check dial now => s.check localID dial now
  | .retryFailedHosts order => s.retryFailedHosts order
  | .retry dial now => s.retry dial now

end Steps

def start (r : HostRegistry) : Checked := ⟨r, [], [], .next, none, fun _ => 0⟩

/-- The host that a retry has reached and whose count it has not deleted yet. -/
def reached (s : Checked) : Option GoString := s.retrying.bind fun retries => retries.pc.recovering

/-- A host that is marked as offline has failed often enough in a row. -/
def MarksLate (s : Checked) : CheckEvent → Prop
  | .check _ _ => ∀ hostID ∈ s.checking.marks, (get hostID s.registry.hosts).isSome →
      maxRetries ≤ s.streak hostID
  | _ => True

/-- Where a registration begins, nothing is left of an older one: no count, no copy in a round of checks, no
    failed probe that is not dealt with. No check of a host fails between a retry that reaches it and the
    deletion of its count, and no retry reaches a host between a failed check of it and the comparison of
    its count or, if it comes to that, the mark. -/
def Orderly (renews : Bool) (maxHosts : Int) (s : Checked) : CheckEvent → Prop
  | .call c => ∀ hostID ∈ s.registry.begins renews maxHosts c, get hostID s.failedHosts = none ∧
      (∀ copy ∈ s.round, copy.host.id ≠ hostID) ∧ s.checking.failing ≠ some hostID
  | .check dial _ => s.checking = .next → ∀ c ∈ s.round.head?, checkHostHealth dial c.host = false →
      s.reached ≠ some c.host.id
  | .retry dial _ => ∀ target ∈ s.retrying.bind fun retries => retries.pc.dials,
      checkHostHealth dial (s.registry.heap target.2) = true → s.checking.failing ≠ some target.1
  | _ => True

/-- The counts are never above the failed checks in a row, but for a host whose probe has succeeded and whose
    count is still to be deleted. -/
structure Tallied (s : Checked) : Prop where
  counts : ∀ hostID, s.checking.recovering ≠ some hostID → s.reached ≠ some hostID →
    s.countOf hostID ≤ s.streak hostID
  failed : ∀ hostID, s.checking = .failed hostID → s.countOf hostID < s.streak hostID
  marking : ∀ hostID, s.checking = .marking hostID → maxRetries ≤ s.streak hostID
  apart : ∀ hostID, s.checking.failing = some hostID → s.reached ≠ some hostID
  current : ∀ c ∈ s.round, c.current = true

attribute [grind] CheckPc.failing CheckPc.recovering RetryPc.recovering reached

theorem tallied_start (r : HostRegistry) : (start r).Tallied := by
  constructor <;> grind [start, countOf, GoMap.get]

variable {s s' : Checked} {hostID : GoString}

theorem Tallied.restart (tallied : s.Tallied) (noCount : get hostID s.failedHosts = none)
    (noCopy : ∀ copy ∈ s.round, copy.host.id ≠ hostID) (dealt : s.checking.failing ≠ some hostID) :
    (s.restart hostID).Tallied := by
  have zero : s.countOf hostID = 0 := by
    unfold countOf
    rw [noCount]
    rfl
  obtain ⟨counts, failed, marking, apart, current⟩ := tallied
  unfold Checked.restart
  constructor
  case current =>
    intro c mem
    obtain ⟨copy, here, same⟩ := mem_map.mp mem
    rw [if_neg (noCopy copy here)] at same
    exact same ▸ current copy here
  case apart => exact apart
  all_goals grind [countOf]

variable {now : Int} {dial : Bool} {e : CheckEvent} {renews : Bool} {maxHosts : Int} {localID : GoString}

theorem Tallied.called (tallied : s.Tallied) {c : HostRegistry.Call}
    (orderly : s.Orderly renews maxHosts (.call c)) (taken : s.called renews maxHosts c = some s') :
    s'.Tallied := by
  unfold Checked.called at taken
  split at taken
  · cases taken
  · obtain ⟨registry, returned, same⟩ := Option.map_eq_some_iff.mp taken
    have moved : ({ s with registry := registry } : Checked).Tallied :=
      ⟨tallied.counts, tallied.failed, tallied.marking, tallied.apart, tallied.current⟩
    cases begun : s.registry.begins renews maxHosts c with
    | none =>
      simp only [begun] at same
      exact same ▸ moved
    | some hostID =>
      simp only [begun] at same
      obtain ⟨noCount, noCopy, dealt⟩ := orderly hostID begun
      exact same ▸ moved.restart noCount noCopy dealt

theorem Tallied.performHealthChecks (tallied : s.Tallied) {order : List (GoString × Nat)}
    (taken : s.performHealthChecks order = some s') : s'.Tallied := by
  unfold Checked.performHealthChecks at taken
  split at taken
  · cases taken
    refine ⟨tallied.counts, tallied.failed, tallied.marking, tallied.apart, fun c mem => ?_⟩
    obtain ⟨entry, here, same⟩ := mem_map.mp mem
    exact same ▸ rfl
  · cases taken

theorem Tallied.probe (tallied : s.Tallied) (next : s.checking = .next)
    (orderly : s.Orderly renews maxHosts (.check dial now)) (taken : s.probe localID dial = some s') :
    s'.Tallied := by
  unfold Checked.probe at taken
  split at taken
  · cases taken
  · rename_i c rest left
    have fewer : rest ⊆ s.round := left ▸ subset_cons_self c rest
    have isCurrent := tallied.current c (left ▸ mem_cons_self)
    have apart := orderly next c (left ▸ rfl)
    obtain ⟨counts, failed, marking, _, current⟩ := tallied
    split at taken
    · cases taken
      constructor <;> grind [countOf]
    · split at taken
      · cases taken
        constructor <;> grind [countOf]
      · cases taken
        constructor <;> grind [countOf]

theorem Tallied.changeStatus (tallied : s.Tallied) {status errorMsg : GoString} {pc : CheckPc}
    (recovers : ∀ other, s.checking.recovering = some other → pc.recovering = some other)
    (dealt : pc.failing = none) (taken : s.changeStatus hostID status errorMsg now pc = some s') :
    s'.Tallied := by
  unfold Checked.changeStatus at taken
  split at taken
  · cases taken
  · obtain ⟨result, returned, same⟩ := Option.map_eq_some_iff.mp taken
    subst same
    obtain ⟨counts, _, _, _, current⟩ := tallied
    constructor <;> grind [countOf]

theorem Tallied.check (tallied : s.Tallied) (orderly : s.Orderly renews maxHosts (.check dial now))
    (taken : s.check localID dial now = some s') : s'.Tallied := by
  unfold Checked.check at taken
  split at taken
  · rename_i next
    exact tallied.probe next orderly taken
  · rename_i hostID answered
    exact tallied.changeStatus (by grind) rfl taken
  · rename_i hostID clearing
    cases taken
    obtain ⟨counts, _, _, _, current⟩ := tallied
    constructor <;> grind [countOf, get_erase]
  · rename_i hostID failing
    cases taken
    obtain ⟨counts, failed, _, apart, current⟩ := tallied
    constructor <;> grind [countOf, get_set]
  · rename_i hostID counted
    cases taken
    obtain ⟨counts, _, _, apart, current⟩ := tallied
    constructor <;> grind [countOf]
  · exact tallied.changeStatus (by grind) rfl taken

theorem Tallied.retry (tallied : s.Tallied) (orderly : s.Orderly renews maxHosts (.retry dial now))
    (taken : s.retry dial now = some s') : s'.Tallied := by
  obtain ⟨counts, failed, marking, apart, current⟩ := tallied
  unfold Checked.retry at taken
  split at taken
  · cases taken
  · cases taken
    constructor <;> grind [countOf]
  · cases taken
    constructor <;> grind [countOf, visit]
  · cases taken
    constructor <;> grind [countOf, get_erase]
  · rename_i left hostID place dialling
    have dealt := orderly (hostID, place) (by rw [dialling]; rfl)
    split at taken
    · cases taken
      constructor <;> grind [countOf]
    · cases taken
      constructor <;> grind [countOf]
  · cases taken
    constructor <;> grind [countOf, get_erase]
  · obtain ⟨registry, sent, same⟩ := Option.map_eq_some_iff.mp taken
    subst same
    constructor <;> grind [countOf]

theorem Tallied.step (tallied : s.Tallied) (orderly : s.Orderly renews maxHosts e)
    (taken : s.step renews maxHosts localID e = some s') : s'.Tallied := by
  cases e with
  | call c => exact tallied.called orderly taken
  | performHealthChecks order => exact tallied.performHealthChecks taken
  | check dial now => exact tallied.check orderly taken
  | retryFailedHosts order =>
    simp only [Checked.step, Checked.retryFailedHosts] at taken
    split at taken
    · rename_i free
      have idle := Option.isNone_iff_eq_none.mp free.1
      cases taken
      obtain ⟨counts, failed, marking, apart, current⟩ := tallied
      constructor <;> grind [countOf]
    · cases taken
  | retry dial now => exact tallied.retry orderly taken

/-- Whether or not a call for a stored identifier begins a registration, for every limit, every registry to
    begin with and every sequence of calls and steps of checks and retries with any outcomes: where every
    registration, check and retry is orderly, every host that is marked as offline has failed `maxRetries`
    checks in a row since its registration, with no successful probe among them or behind them. -/
theorem marksLate_of_orderly (renews : Bool) (maxHosts : Int) (localID : GoString) (r : HostRegistry)
    (events : List CheckEvent)
    (orderly : EachStep (step renews maxHosts localID) (Orderly renews maxHosts) (start r) events) :
    EachStep (step renews maxHosts localID) MarksLate (start r) events := by
  apply eachStep_of_each Tallied _ events (tallied_start r) orderly
  intro s e s' tallied here taken
  refine ⟨?_, tallied.step here taken⟩
  cases e with
  | check dial now =>
    intro hostID marks _
    exact tallied.marking hostID (CheckPc.marks_eq_some.mp marks)
  | call c | performHealthChecks order | retryFailedHosts order | retry dial now => trivial

/-- The copies of the hosts are made, the local one is skipped, and the other does not answer, is counted
    and compared. -/
def failedRound (place : Nat) : List CheckEvent :=
  [.performHealthChecks [(ascii "local", 0), (ascii "host-1", place)], .check true 0, .check false 0,
    .check true 0, .check true 0]

/-- The other host is dialled again. -/
def retryRound (dial : Bool) : List CheckEvent :=
  [.retryFailedHosts [ascii "host-1"], .retry true 0, .retry dial 0]

def localOnly : HostRegistry := HostRegistry.newHostRegistry 100 HostRegistry.twoHosts 0 0

def register (place : Nat) : CheckEvent := .call (.registerHost (some place) 0)

def mark : CheckEvent := .check true 0

/-- The other host is registered and fails three times, and once more when it is dialled again. -/
def failsThrice : List CheckEvent :=
  register 1 :: (failedRound 1 ++ failedRound 1 ++ retryRound false ++ [.retry true 0] ++ failedRound 1) ++ [mark]

instance (renews : Bool) (maxHosts : Int) (s : Checked) : ∀ e, Decidable (s.Orderly renews maxHosts e)
  | .call _ | .check _ _ | .retry _ _ => by
    unfold Orderly
    infer_instance
  | .performHealthChecks _ | .retryFailedHosts _ => isTrue trivial

instance (s : Checked) : ∀ e, Decidable (s.MarksLate e)
  | .check _ _ => by
    unfold MarksLate
    infer_instance
  | .call _ | .performHealthChecks _ | .retryFailedHosts _ | .retry _ _ => isTrue trivial

theorem marksLate_failsThrice :
    (failsThrice.foldlM (step true 100 (ascii "local")) (start localOnly)).isSome = true ∧
    EachStep (step true 100 (ascii "local")) (Orderly true 100) (start localOnly) failsThrice ∧
    EachStep (step true 100 (ascii "local")) MarksLate (start localOnly) failsThrice := by
  have orderly : EachStep (step true 100 (ascii "local")) (Orderly true 100) (start localOnly) failsThrice := by
    decide +kernel
  exact ⟨by decide +kernel, orderly, marksLate_of_orderly true 100 (ascii "local") localOnly failsThrice orderly⟩

/-- After three failed checks the host is registered as another object, and fails once. -/
def failsOnceMore : List CheckEvent :=
  failsThrice ++ [.call (.unregisterHost (ascii "host-1") 0), register 2] ++ failedRound 2 ++ [mark]

/-- After two failed checks a retry reaches the host, and a check fails before the count is deleted. -/
def overtakesRetry : List CheckEvent :=
  register 1 :: (failedRound 1 ++ failedRound 1) ++ (failedRound 1).take 2 ++ retryRound true ++
    (failedRound 1).drop 2 ++ [.retry true 0, .retry true 0, .retry true 0, mark]

/-- One failed check after the registration is enough, whatever a registration is, and so is one behind a
    retry that has reached the host. -/
theorem failsOnceMore_marks_early :
    ¬ EachStep (step false 100 (ascii "local")) MarksLate (start localOnly) failsOnceMore ∧
    ¬ EachStep (step true 100 (ascii "local")) MarksLate (start localOnly) failsOnceMore ∧
    ¬ EachStep (step true 100 (ascii "local")) MarksLate (start localOnly) overtakesRetry := by
  refine ⟨?_, ?_, ?_⟩
  · decide +kernel
  · decide +kernel
  · decide +kernel

end Checked

end Monitor.Agent
