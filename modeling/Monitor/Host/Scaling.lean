import Monitor.Host.Registry

/-! # Adding and removing hosts to reach a number

`performScaleUp` and `performScaleDown` of `manager.go`, with the removal of a host. Scaling up
registers hosts under identifiers made of the time and a number; an identifier that is taken
already adds no host. Scaling down goes from the wanted number to the number of all hosts, but
removes from the list of the healthy ones, which may be shorter.
-/

namespace Monitor.Host

open GoText List GoMap

inductive Outcome where
  | returned (err : Option GoString)
  | panicked
  deriving DecidableEq

/-- The registry after a call, with the hosts for which `host_removed` was sent. -/
structure Scaled (F : Type) where
  registry : HostRegistry F
  removed : List GoString
  outcome : Outcome

namespace HostRegistry

variable {F : Type}

def getHostCount (r : HostRegistry F) : Nat := r.hosts.length

def isHealthy (entry : GoString × HostInfo F) : Bool := entry.2.state = .healthy

/-- The identifiers of the hosts of `GetHealthyHosts`, in the order of `sort.Slice`. -/
def healthyHosts (r : HostRegistry F) : List GoString :=
  (GoMap.keysOf (r.hosts.filter isHealthy)).insertionSort fun a b => before b a = false

def unregisterHost (r : HostRegistry F) (hostID : GoString) : Except GoString (HostRegistry F) :=
  match r.getHost hostID with
  | none => .error (text "主机 " ++ hostID ++ text " 不存在")
  | some _ => .ok { r with hosts := GoMap.erase hostID r.hosts }

/-- `removeHost`; `GetHost` has the error of `UnregisterHost`. -/
def removeHost (r : HostRegistry F) (hostID : GoString) : Except GoString (HostRegistry F) :=
  r.unregisterHost hostID

section Up

variable [Zero F]

def newHostID (now i : Int) : GoString :=
  ascii "host-" ++ itoa (now / 1000000000) ++ ascii "-" ++ itoa i

def newHost (F : Type) [Zero F] (now : Int) : HostInfo F where
  state := .healthy
  lastHeartbeat := now
  lastCheck := now
  load := ⟨0, 0, 0⟩

/-- The loop of `performScaleUp`; `clock` has the time of each round. -/
def scaleUpLoop (clock : Int → Int) : Nat → Int → HostRegistry F → HostRegistry F
  | 0, _, r => r
  | rounds + 1, i, r =>
    scaleUpLoop clock rounds (i + 1)
      (r.registerHost (newHostID (clock i) i) (newHost F (clock i)) (clock i))

def performScaleUp (r : HostRegistry F) (targetCount : Int) (clock : Int → Int) : Scaled F :=
  let currentCount := r.getHostCount
  if targetCount ≤ currentCount then
    ⟨r, [], .returned (some (text "当前主机数量 " ++ itoa currentCount ++ text " 已达到目标数量 " ++
      itoa targetCount))⟩
  else
    ⟨scaleUpLoop clock (targetCount - currentCount).toNat currentCount r, [], .returned none⟩

end Up

def index (hosts : List GoString) (i : Int) : Option GoString :=
  if i < 0 then none else hosts[i.toNat]?

/-- The loop of `performScaleDown`. -/
def scaleDownLoop (healthy : List GoString) :
    Nat → Int → HostRegistry F → List GoString → Scaled F
  | 0, _, r, removed => ⟨r, removed, .returned none⟩
  | rounds + 1, i, r, removed =>
    if i < healthy.length then
      match index healthy i with
      | none => ⟨r, removed, .panicked⟩
      | some hostID =>
        match r.removeHost hostID with
        | .error err =>
          ⟨r, removed, .returned (some (text "移除主机 " ++ hostID ++ text " 失败: " ++ err))⟩
        | .ok r => scaleDownLoop healthy rounds (i + 1) r (removed ++ [hostID])
    else
      scaleDownLoop healthy rounds (i + 1) r removed

def performScaleDown (r : HostRegistry F) (targetCount : Int) : Scaled F :=
  let currentCount := r.getHostCount
  if currentCount ≤ targetCount then
    ⟨r, [], .returned (some (text "当前主机数量 " ++ itoa currentCount ++ text " 已达到目标数量 " ++
      itoa targetCount))⟩
  else
    let healthy := r.healthyHosts
    if healthy.length ≤ targetCount then
      ⟨r, [], .returned (some (text "健康主机数量 " ++ itoa healthy.length ++ text " 不足，无法缩容到 " ++
        itoa targetCount))⟩
    else
      scaleDownLoop healthy (currentCount - targetCount).toNat targetCount r []

end HostRegistry

namespace HostRegistry

variable {F : Type} {r : HostRegistry F}

/-- The registry holds a Go map: every identifier once. -/
def IsMap (r : HostRegistry F) : Prop := (GoMap.keysOf r.hosts).Nodup

theorem newHostID_inj {now now' i i' : Int} (nonneg : 0 ≤ i) (nonneg' : 0 ≤ i')
    (same : newHostID now i = newHostID now' i') : i = i' := by
  have split : ∀ now i, newHostID now i = (ascii "host-" ++ itoa (now / 1000000000)) ++ 45 :: itoa i := by
    intro now i
    simp [newHostID, ascii]
  rw [split, split] at same
  exact itoa_injective (append_mark_inj (dash_not_mem_itoa nonneg) (dash_not_mem_itoa nonneg') same).2

/-- The numbers of the rounds of a loop. -/
def rounds (i : Int) (n : Nat) : List Int := (List.range n).map fun k : Nat => i + k

theorem rounds_succ (i : Int) (n : Nat) : rounds i (n + 1) = i :: rounds (i + 1) n := by
  unfold rounds
  rw [range_succ_eq_map, map_cons, map_map]
  simp only [Nat.cast_zero, add_zero, Function.comp_def, Nat.succ_eq_add_one, Nat.cast_add, Nat.cast_one]
  congr 2
  funext k
  omega

theorem mem_rounds {i j : Int} {n : Nat} : j ∈ rounds i n ↔ i ≤ j ∧ j < i + n := by
  unfold rounds
  simp only [mem_map, mem_range]
  constructor
  · rintro ⟨k, small, rfl⟩
    omega
  · rintro ⟨low, high⟩
    exact ⟨(j - i).toNat, by omega, by omega⟩

theorem mem_keysOf_registerHost {k hostID : GoString} {host : HostInfo F} {now : Int} :
    k ∈ keysOf (r.registerHost hostID host now).hosts ↔ k = hostID ∨ k ∈ keysOf r.hosts :=
  mem_keysOf_set ..

theorem scaleUpLoop_count [Zero F] (clock : Int → Int) (n : Nat) {i : Int} (nonneg : 0 ≤ i) (r : HostRegistry F) :
    (scaleUpLoop clock n i r).getHostCount = r.getHostCount +
      ((rounds i n).filter fun j => newHostID (clock j) j ∉ keysOf r.hosts).length := by
  induction n generalizing i r with
  | zero => rfl
  | succ n ih =>
    have later : (rounds (i + 1) n).filter (fun j => newHostID (clock j) j ∉
          keysOf (r.registerHost (newHostID (clock i) i) (newHost F (clock i)) (clock i)).hosts) =
        (rounds (i + 1) n).filter fun j => newHostID (clock j) j ∉ keysOf r.hosts := by
      refine filter_congr fun j mem => ?_
      have apart : newHostID (clock j) j ≠ newHostID (clock i) i := by
        intro same
        have after := mem_rounds.mp mem
        have := newHostID_inj (by omega) nonneg same
        omega
      simp only [mem_keysOf_registerHost, apart, false_or]
    rw [scaleUpLoop, ih (by omega), later, rounds_succ, filter_cons]
    by_cases taken : newHostID (clock i) i ∈ keysOf r.hosts
    · have same : (r.registerHost (newHostID (clock i) i) (newHost F (clock i)) (clock i)).getHostCount =
          r.getHostCount := length_set_of_mem _ taken
      simp [taken, same]
    · have more : (r.registerHost (newHostID (clock i) i) (newHost F (clock i)) (clock i)).getHostCount =
          r.getHostCount + 1 := length_set_of_not_mem _ taken
      simp only [more, taken, not_false_eq_true, decide_true, if_true, length_cons]
      omega

theorem healthyHosts_perm (r : HostRegistry F) :
    r.healthyHosts.Perm (keysOf (r.hosts.filter isHealthy)) :=
  perm_insertionSort ..

theorem IsMap.healthyHosts_nodup (isMap : r.IsMap) : r.healthyHosts.Nodup :=
  r.healthyHosts_perm.nodup_iff.mpr (keysOf_filter_nodup isMap _)

theorem healthyHosts_length (r : HostRegistry F) :
    r.healthyHosts.length = (r.hosts.filter isHealthy).length :=
  r.healthyHosts_perm.length_eq.trans (length_map _)

theorem healthyHosts_le (r : HostRegistry F) : r.healthyHosts.length ≤ r.getHostCount := by
  rw [healthyHosts_length]
  exact length_filter_le ..

theorem healthyHosts_all_iff (r : HostRegistry F) :
    r.healthyHosts.length = r.getHostCount ↔ ∀ entry ∈ r.hosts, entry.2.state = .healthy := by
  rw [healthyHosts_length, getHostCount, length_filter_eq_length_iff]
  simp only [isHealthy, decide_eq_true_eq]

variable {hostID : GoString}

theorem mem_keysOf_of_healthy (healthy : hostID ∈ r.healthyHosts) :
    hostID ∈ keysOf (r.hosts.filter isHealthy) :=
  r.healthyHosts_perm.mem_iff.mp healthy

theorem mem_keysOf_of_filter {p : GoString × HostInfo F → Bool}
    (mem : hostID ∈ keysOf (r.hosts.filter p)) : hostID ∈ keysOf r.hosts := by
  obtain ⟨entry, lt, rfl⟩ := mem_map.mp mem
  exact mem_map.mpr ⟨entry, mem_of_mem_filter lt, rfl⟩

def without (r : HostRegistry F) (hostIDs : List GoString) : HostRegistry F :=
  { r with hosts := GoMap.eraseAll hostIDs r.hosts }

theorem removeHost_present (present : hostID ∈ keysOf r.hosts) :
    r.removeHost hostID = .ok { r with hosts := erase hostID r.hosts } := by
  obtain ⟨host, found⟩ := Option.isSome_iff_exists.mp (get_isSome_iff.mpr present)
  unfold removeHost unregisterHost getHost
  rw [found]

theorem scaleDownLoop_removes {healthy : List GoString} (distinct : healthy.Nodup) (n i : Nat)
    {r : HostRegistry F} (present : ∀ hostID ∈ healthy.drop i, hostID ∈ keysOf r.hosts)
    (removed : List GoString) : scaleDownLoop healthy n i r removed =
      ⟨r.without ((healthy.drop i).take n), removed ++ (healthy.drop i).take n, .returned none⟩ := by
  induction n generalizing i r removed with
  | zero => simp [scaleDownLoop, without, eraseAll]
  | succ n ih =>
    have next : (i : Int) + 1 = (i + 1 : Nat) := rfl
    rw [scaleDownLoop, next]
    by_cases lt : i < healthy.length
    · have split : healthy.drop i = healthy[i] :: healthy.drop (i + 1) := drop_eq_getElem_cons lt
      have found : index healthy i = some healthy[i] := by simp [index, lt]
      have here : healthy[i] ∈ keysOf r.hosts := present _ (split ▸ mem_cons_self)
      have apart : healthy[i] ∉ healthy.drop (i + 1) := by
        have tail : (healthy.drop i).Nodup := distinct.sublist (drop_sublist i healthy)
        rw [split] at tail
        exact (nodup_cons.mp tail).1
      have later : ∀ hostID ∈ healthy.drop (i + 1), hostID ∈
          keysOf (erase healthy[i] r.hosts) := by
        intro hostID mem
        refine (mem_keysOf_erase _).mpr ⟨?_, present hostID (split ▸ mem_cons_of_mem _ mem)⟩
        rintro rfl
        exact apart mem
      rw [if_pos (by omega), found]
      simp only [removeHost_present here]
      rw [ih (i + 1) later, split, take_succ_cons, append_assoc]
      rfl
    · have none_left : healthy.drop i = [] := drop_eq_nil_of_le (by omega)
      have none_later : healthy.drop (i + 1) = [] := drop_eq_nil_of_le (by omega)
      rw [if_neg (by omega), ih (i + 1) (by simp [none_later]), none_left, none_later, take_nil,
        take_nil]

/-- The hosts that scaling down to a number removes. -/
def surplus (r : HostRegistry F) (targetCount : Int) : List GoString := r.healthyHosts.drop targetCount.toNat

variable {targetCount : Int}

theorem performScaleDown_removes (isMap : r.IsMap) (nonneg : 0 ≤ targetCount)
    (enough : targetCount < r.healthyHosts.length) : r.performScaleDown targetCount =
      ⟨r.without (r.surplus targetCount), r.surplus targetCount, .returned none⟩ := by
  obtain ⟨n, rfl⟩ := Int.eq_ofNat_of_zero_le nonneg
  have small := r.healthyHosts_le
  have all : (r.healthyHosts.drop n).length ≤ ((r.getHostCount : Int) - n).toNat := by
    rw [length_drop]
    omega
  have present : ∀ hostID ∈ r.healthyHosts.drop n, hostID ∈ keysOf r.hosts := fun hostID mem =>
    mem_keysOf_of_filter (mem_keysOf_of_healthy (mem_of_mem_drop mem))
  unfold performScaleDown surplus
  simp only [if_neg (show ¬ (r.getHostCount : Int) ≤ (n : Int) by omega), if_neg enough.not_ge]
  rw [scaleDownLoop_removes isMap.healthyHosts_nodup _ n present, take_of_length_le all]
  rfl

theorem performScaleDown_negative (negative : targetCount < 0) :
    r.performScaleDown targetCount = ⟨r, [], .panicked⟩ := by
  unfold performScaleDown
  simp only [if_neg (show ¬ (r.getHostCount : Int) ≤ targetCount by omega),
    if_neg (show ¬ (r.healthyHosts.length : Int) ≤ targetCount by omega)]
  obtain ⟨n, more⟩ : ∃ n, ((r.getHostCount : Int) - targetCount).toNat = n + 1 :=
    ⟨((r.getHostCount : Int) - targetCount).toNat - 1, by omega⟩
  rw [more, scaleDownLoop, if_pos (by omega)]
  simp [index, negative]

theorem performScaleDown_refused (few : r.healthyHosts.length ≤ targetCount) :
    ∃ err, r.performScaleDown targetCount = ⟨r, [], .returned (some err)⟩ := by
  unfold performScaleDown
  simp only [few, if_true]
  split
  · exact ⟨_, rfl⟩
  · exact ⟨_, rfl⟩

theorem surplus_length (r : HostRegistry F) (targetCount : Int) :
    (r.surplus targetCount).length = r.healthyHosts.length - targetCount.toNat :=
  length_drop

theorem without_count (isMap : r.IsMap) (targetCount : Int) :
    (r.without (r.surplus targetCount)).getHostCount + (r.surplus targetCount).length =
      r.getHostCount := by
  refine length_eraseAll (isMap.healthyHosts_nodup.sublist (drop_sublist ..)) ?_ isMap
  exact fun hostID mem =>
    mem_keysOf_of_filter (mem_keysOf_of_healthy (mem_of_mem_drop mem))

theorem without_healthy (isMap : r.IsMap) (targetCount : Int) :
    (r.without (r.surplus targetCount)).healthyHosts.length + (r.surplus targetCount).length =
      r.healthyHosts.length := by
  rw [healthyHosts_length, healthyHosts_length]
  unfold without
  rw [eraseAll_filter]
  refine length_eraseAll (isMap.healthyHosts_nodup.sublist (drop_sublist ..)) ?_
    (keysOf_filter_nodup isMap _)
  exact fun hostID mem => mem_keysOf_of_healthy (mem_of_mem_drop mem)

def Honest (targetCount : Int) (result : Scaled F) : Prop :=
  result.outcome = .returned none → (result.registry.getHostCount : Int) = targetCount

theorem performScaleUp_honest_iff [Zero F] (r : HostRegistry F) (targetCount : Int) (clock : Int → Int) :
    Honest targetCount (r.performScaleUp targetCount clock) ↔
      targetCount ≤ r.getHostCount ∨ ∀ i : Int, r.getHostCount ≤ i → i < targetCount →
        newHostID (clock i) i ∉ keysOf r.hosts := by
  unfold Honest performScaleUp
  by_cases reached : targetCount ≤ r.getHostCount
  · simp [reached]
  · have count := scaleUpLoop_count clock (targetCount - r.getHostCount).toNat (i := r.getHostCount)
      (by omega) r
    have length : (rounds r.getHostCount (targetCount - r.getHostCount).toNat).length =
        (targetCount - r.getHostCount).toNat := by
      simp [rounds]
    simp only [reached, if_false, forall_const, false_or, count]
    constructor
    · intro equal i low high
      have whole := length_filter_eq_length_iff.mp
        (show ((rounds r.getHostCount (targetCount - r.getHostCount).toNat).filter
          fun j => newHostID (clock j) j ∉ keysOf r.hosts).length = _ by omega)
      simpa using whole i (mem_rounds.mpr ⟨low, by omega⟩)
    · intro fresh
      have whole := length_filter_eq_length_iff.mpr
        (show ∀ j ∈ rounds r.getHostCount (targetCount - r.getHostCount).toNat,
          decide (newHostID (clock j) j ∉ keysOf r.hosts) = true by
            intro j mem
            obtain ⟨low, high⟩ := mem_rounds.mp mem
            simpa using fresh j low (by omega))
      omega

theorem performScaleDown_honest_iff (isMap : r.IsMap) (targetCount : Int) :
    Honest targetCount (r.performScaleDown targetCount) ↔
      targetCount < 0 ∨ r.healthyHosts.length ≤ targetCount ∨
        ∀ entry ∈ r.hosts, entry.2.state = .healthy := by
  rw [← healthyHosts_all_iff]
  by_cases negative : targetCount < 0
  · simp [Honest, performScaleDown_negative negative, negative]
  · by_cases few : r.healthyHosts.length ≤ targetCount
    · obtain ⟨err, refused⟩ := performScaleDown_refused few
      simp [Honest, refused, few]
    · have count := without_count isMap targetCount
      have gone := r.surplus_length targetCount
      simp only [Honest, performScaleDown_removes isMap (not_lt.mp negative) (not_le.mp few), negative, few,
        false_or, forall_const]
      omega

/-- For every registry and every target: a nil result means that the target was reached exactly when
    no identifier of the hosts to add is taken, and when every host is healthy unless nothing is
    removed. -/
theorem scaling_honest_iff [Zero F] (isMap : r.IsMap) (targetCount : Int) (clock : Int → Int) :
    (Honest targetCount (r.performScaleUp targetCount clock) ↔
      targetCount ≤ r.getHostCount ∨ ∀ i : Int, r.getHostCount ≤ i → i < targetCount →
        newHostID (clock i) i ∉ GoMap.keysOf r.hosts) ∧
    (Honest targetCount (r.performScaleDown targetCount) ↔
      targetCount < 0 ∨ r.healthyHosts.length ≤ targetCount ∨
        ∀ entry ∈ r.hosts, entry.2.state = .healthy) :=
  ⟨performScaleUp_honest_iff r targetCount clock, performScaleDown_honest_iff isMap targetCount⟩

/-- Three hosts, of which one is offline and one has the identifier of an automatically added host. -/
def mixedHosts : HostRegistry Int where
  hosts := [(ascii "a", ⟨.healthy, 0, 0, ⟨0, 0, 0⟩⟩), (ascii "b", ⟨.offline, 0, 0, ⟨0, 0, 0⟩⟩),
    (ascii "host-7-3", ⟨.healthy, 0, 0, ⟨0, 0, 0⟩⟩)]
  offlineTimeout := 60

def seventhSecond : Int → Int := fun _ => 7500000000

/-- Scaling up to four hosts in the seventh second registers `host-7-3` again; scaling down to one
    host removes `host-7-3` and leaves the host that is offline. -/
theorem mixedHosts_missed :
    (mixedHosts.performScaleUp 4 seventhSecond).outcome = .returned none ∧
    (mixedHosts.performScaleUp 4 seventhSecond).registry.getHostCount = 3 ∧
    (mixedHosts.performScaleDown 1).outcome = .returned none ∧
    (mixedHosts.performScaleDown 1).removed = [ascii "host-7-3"] ∧
    (mixedHosts.performScaleDown 1).registry.getHostCount = 2 ∧
    ¬ Honest 4 (mixedHosts.performScaleUp 4 seventhSecond) ∧ ¬ Honest 1 (mixedHosts.performScaleDown 1) := by
  refine ⟨by decide +kernel, by decide +kernel, by decide +kernel, by decide +kernel, by decide +kernel, ?_, ?_⟩
  · exact fun honest => absurd (honest (by decide +kernel)) (by decide +kernel)
  · exact fun honest => absurd (honest (by decide +kernel)) (by decide +kernel)

/-- Scaling up to five hosts in the eighth second, and down to two. -/
theorem scaling_honest_iff_mixedHosts :
    mixedHosts.IsMap ∧
      Honest 5 (mixedHosts.performScaleUp 5 fun _ => 8000000000) ∧
      Honest 2 (mixedHosts.performScaleDown 2) := by
  have isMap : mixedHosts.IsMap := by
    unfold IsMap
    decide +kernel
  have up := scaling_honest_iff isMap 5 fun _ => 8000000000
  have down := scaling_honest_iff isMap 2 fun _ => 8000000000
  refine ⟨isMap, up.1.mpr (.inr fun i low high => ?_), down.2.mpr (.inr (.inl (by decide +kernel)))⟩
  have count : mixedHosts.getHostCount = 3 := by decide +kernel
  obtain rfl | rfl : i = 3 ∨ i = 4 := by omega
  · decide +kernel
  · decide +kernel

end HostRegistry

end Monitor.Host
