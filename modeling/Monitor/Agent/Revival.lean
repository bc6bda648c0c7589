import Monitor.Agent.Registry
import Monitor.Lib.Runs

/-! # Registering a host again

The limit is compared before the identifier is looked up, so at the limit a host that is stored cannot be
registered again. And where the table has another object for the identifier, the call merges the new
host into that object and then sets the status of the new one: the stored host keeps its status.
-/

namespace Monitor.Agent.HostRegistry

open GoText GoMap Runs Option

variable (maxHosts : Int)

/-- A valid host whose identifier is stored can be registered, and what is stored after a registration is
    online. -/
def Revives (r : HostRegistry) : Call → Prop
  | .registerHost (some place) now => ∀ outcome r', r.registerHost maxHosts (some place) now = some
      (outcome, r') →
      (validateHostInfo (r.heap place) = .ok () → (get (r.heap place).id r.hosts).isSome → outcome = .ok ()) ∧
      (outcome = .ok () → ∃ stored, get (r.heap place).id r'.hosts = some stored ∧
        (r'.heap stored).status = online)
  | _ => True

/-- There is room for one more host, and the stored host is the one that is registered or is online. -/
def Revivable (r : HostRegistry) : Call → Prop
  | .registerHost (some place) _ => validateHostInfo (r.heap place) = .ok () →
      ∀ stored, get (r.heap place).id r.hosts = some stored →
        (r.hosts.length : Int) < maxHosts ∧ (stored = place ∨ (r.heap stored).status = online)
  | _ => True

variable {maxHosts} {r r' : HostRegistry} {place : Nat}

theorem store_new (absent : get (r.heap place).id r.hosts = none) (now : Int) :
    get (r.heap place).id (r.store place now).hosts = some place ∧
      ((r.store place now).heap place).status = online := by
  unfold store
  rw [absent]
  refine ⟨?_, ?_⟩
  · exact (get_set _ _ _ _).trans (if_pos rfl)
  · simp [setOnline, write]

theorem store_stored {place stored : Nat} (found : get (r.heap place).id r.hosts = some stored) (now : Int) :
    get (r.heap place).id (r.store place now).hosts = some stored ∧
      (((r.store place now).heap stored).status = online ↔ stored = place ∨ (r.heap stored).status =
      online) := by
  unfold store
  rw [found]
  refine ⟨found, ?_⟩
  by_cases same : stored = place
  · subst same
    simp [setOnline, write]
  · simp [setOnline, write, same, updateHostInfo]

theorem revivable_of_revives {now : Int} {outcome : Except RegistryError Unit}
    (returned : r.registerHost maxHosts (some place) now = some (outcome, r'))
    (revives : Revives maxHosts r (.registerHost (some place) now)) :
    Revivable maxHosts r (.registerHost (some place) now) := by
  intro valid stored found
  obtain ⟨succeeds, revived⟩ := revives outcome r' returned
  have success := succeeds valid (by rw [found]; rfl)
  obtain ⟨stored', found', status⟩ := revived success
  cases registerHost_spec returned with
  | inl failed =>
    obtain ⟨err, isError, unchanged, reason⟩ := failed
    rw [success] at isError
    cases isError
  | inr done =>
    obtain ⟨place', same, room, valid', ok, heap, hosts⟩ := done
    cases same
    obtain ⟨kept, onlineIff⟩ := store_stored found now
    rw [hosts, kept] at found'
    cases found'
    rw [heap] at status
    exact ⟨room, onlineIff.mp status⟩

theorem revives_of_revivable {now : Int}
    (revivable : Revivable maxHosts r (.registerHost (some place) now)) :
    Revives maxHosts r (.registerHost (some place) now) := by
  intro outcome r' returned
  cases registerHost_spec returned with
  | inl failed =>
    obtain ⟨err, isError, unchanged, reason⟩ := failed
    refine ⟨fun valid isStored => ?_, fun success => ?_⟩
    · obtain ⟨stored, found⟩ := isSome_iff_exists.mp isStored
      cases reason place rfl with
      | inl full => exact absurd (revivable valid stored found).1 (Int.not_lt.mpr full)
      | inr invalid =>
        rw [valid] at invalid
        cases invalid
    · rw [success] at isError
      cases isError
  | inr done =>
    obtain ⟨place', same, room, valid, ok, heap, hosts⟩ := done
    cases same
    refine ⟨fun _ _ => ok, fun _ => ?_⟩
    rw [hosts, heap]
    cases found : get (r.heap place).id r.hosts with
    | none => exact ⟨place, store_new found now⟩
    | some stored =>
      obtain ⟨kept, onlineIff⟩ := store_stored found now
      exact ⟨stored, kept, onlineIff.mpr (revivable valid stored found).2⟩

theorem revives_iff {e : Call} (taken : r.call maxHosts e = some r') :
    Revives maxHosts r e ↔ Revivable maxHosts r e := by
  cases e with
  | registerHost host now =>
    cases host with
    | none => exact Iff.rfl
    | some place =>
      obtain ⟨result, returned, same⟩ := map_eq_some_iff.mp taken
      exact ⟨revivable_of_revives returned, revives_of_revivable⟩
  | assign place host => exact Iff.rfl
  | unregisterHost hostID now => exact Iff.rfl
  | updateHostStatus hostID status errorMsg now => exact Iff.rfl
  | handleEvent => exact Iff.rfl

theorem eachStep_revives_iff (calls : List Call) :
    EachStep (call maxHosts) (Revives maxHosts) r calls ↔
      EachStep (call maxHosts) (Revivable maxHosts) r calls :=
  eachStep_congr (fun _ _ _ taken => revives_iff taken) calls

theorem length_store (room : (r.hosts.length : Int) < maxHosts) (now : Int) :
    ((r.store place now).hosts.length : Int) ≤ maxHosts := by
  rw [store_hosts]
  split
  · omega
  · rename_i absent
    have fresh : (r.heap place).id ∉ keysOf r.hosts := fun mem => absent (get_isSome_iff.mpr mem)
    rw [length_set_of_not_mem _ fresh]
    omega

theorem call_length {e : Call} (below : (r.hosts.length : Int) ≤ maxHosts)
    (taken : r.call maxHosts e = some r') : (r'.hosts.length : Int) ≤ maxHosts := by
  cases e with
  | assign place host =>
    cases taken
    exact below
  | registerHost host now =>
    obtain ⟨result, returned, same⟩ := map_eq_some_iff.mp taken
    subst same
    cases registerHost_spec returned with
    | inl failed =>
      obtain ⟨err, isError, unchanged, reason⟩ := failed
      rw [unchanged]
      exact below
    | inr done =>
      obtain ⟨place, same, room, valid, ok, heap, hosts⟩ := done
      rw [hosts]
      exact length_store room now
  | unregisterHost hostID now =>
    obtain ⟨result, returned, same⟩ := map_eq_some_iff.mp taken
    subst same
    cases (unregisterHost_spec returned).2 with
    | inl unchanged =>
      rw [unchanged]
      exact below
    | inr erased =>
      have fewer : (erase hostID r.hosts).length ≤ r.hosts.length := List.length_filter_le _ _
      rw [erased]
      omega
  | updateHostStatus hostID status errorMsg now =>
    obtain ⟨result, returned, same⟩ := map_eq_some_iff.mp taken
    subst same
    rw [updateHostStatus_hosts returned]
    exact below
  | handleEvent =>
    simp only [call] at taken
    split at taken
    · cases taken
    · cases taken
      exact below

theorem newHostRegistry_length (pos : 0 < maxHosts) (heap : Nat → HostInfo) (localHost : Nat)
    (now : Int) : ((newHostRegistry maxHosts heap localHost now).hosts.length : Int) ≤ maxHosts := by
  have empty : (((⟨heap, [], []⟩ : HostRegistry).hosts.length : Nat) : Int) ≤ maxHosts :=
    Int.le_of_lt pos
  unfold newHostRegistry
  split
  · exact empty
  · rename_i outcome r returned
    exact call_length (e := .registerHost (some localHost) now) empty (by rw [call, returned]; rfl)

instance (r : HostRegistry) (e : Call) : Decidable (Revivable maxHosts r e) := by
  unfold Revivable
  split
  · rename_i place _
    exact inferInstanceAs (Decidable (_ → ∀ stored ∈ get (r.heap place).id r.hosts, _))
  · infer_instance

/-- The other host is stored, goes offline and comes back. -/
def comesBack (place : Nat) : List Call :=
  [.registerHost (some 1) 1, .updateHostStatus (ascii "host-1") offline [] 2, .registerHost (some place) 3]

end Monitor.Agent.HostRegistry
