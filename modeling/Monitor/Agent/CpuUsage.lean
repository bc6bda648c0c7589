import Monitor.Lib.GoMap
import Monitor.Lib.GoText
import Monitor.Lib.Runs

/-! # The usage of the CPU and of its cores

`CPUCollector` of `cpu_collector.go`, with exact arithmetic. Both usages are computed from the
previous reading of `/proc/stat`, which the collector keeps, and a new one. A call is given what its
reads of the file find one after the other; an error is `none`.
-/

namespace Monitor.Agent

open GoText GoMap Runs List Option UInt64

/-- The fields of a `cpuStat` that are used. -/
structure CpuStat where
  idle : UInt64
  total : UInt64
  deriving DecidableEq

abbrev CpuStats := List (GoString × CpuStat)

def usagePercent (prevStat currentStat : CpuStat) : ℚ :=
  100 * (1 - (currentStat.idle - prevStat.idle).toNat / (currentStat.total - prevStat.total).toNat)

def coreName (i : Nat) : GoString := utf8 "cpu" ++ natDigits i

structure CPUCollector where
  prevStats : CpuStats
  coreCount : Nat
  enablePerCore : Bool
  deriving DecidableEq

inductive UsageError where
  | unreadable
  | previousNotFound
  | currentNotFound

namespace CPUCollector

/-- What the call returns, with the reads that are left; `none` when it goes on. -/
def collectCPUUsage : CPUCollector → List (Option CpuStats) →
    Option (Except UsageError ℚ × CPUCollector × List (Option CpuStats))
  | _, [] => none
  | c, none :: reads => some (.error .unreadable, c, reads)
  | c, some currentStats :: reads =>
    if c.prevStats.length = 0 then collectCPUUsage { c with prevStats := currentStats } reads
    else
      match get (utf8 "cpu") c.prevStats, get (utf8 "cpu") currentStats with
      | none, _ => some (.error .previousNotFound, c, reads)
      | some _, none => some (.error .currentNotFound, c, reads)
      | some prevStat, some currentStat =>
        if currentStat.total - prevStat.total = 0 then some (.ok 0, c, reads)
        else some (.ok (usagePercent prevStat currentStat), { c with prevStats := currentStats }, reads)

def coreUsage (prevStats currentStats : CpuStats) (i : Nat) : Option ℚ := do
  let prevStat ← get (coreName i) prevStats
  let currentStat ← get (coreName i) currentStats
  if currentStat.total - prevStat.total = 0 then none else some (usagePercent prevStat currentStat)

def coreUsages (coreCount : Nat) (prevStats currentStats : CpuStats) : List (Nat × ℚ) :=
  (range coreCount).filterMap fun i => (coreUsage prevStats currentStats i).map (i, ·)

def collectPerCoreUsage : CPUCollector → List (Option CpuStats) → Option (Option (List (Nat × ℚ)) × CPUCollector)
  | _, [] => none
  | c, none :: _ => some (none, c)
  | c, some currentStats :: reads =>
    if c.prevStats.length = 0 then collectPerCoreUsage { c with prevStats := currentStats } reads
    else some (some (coreUsages c.coreCount c.prevStats currentStats), { c with prevStats := currentStats })

/-- The metrics of usage; the others come from other files. -/
structure Report where
  usage : ℚ
  cores : List (Nat × ℚ)
  deriving DecidableEq

/-- What a call finds in `/proc/stat`, and whether it can read the load average. -/
structure Collection where
  reads : List (Option CpuStats)
  loadAvg : Bool

def collectAllMetrics (c : CPUCollector) (collection : Collection) : Option (Option Report × CPUCollector) := do
  let (usage, c, reads) ← c.collectCPUUsage collection.reads
  match usage with
  | .error _ => return (none, c)
  | .ok usage =>
    if c.enablePerCore then
      let (cores, c) ← c.collectPerCoreUsage reads
      return (if collection.loadAvg then some ⟨usage, cores.getD []⟩ else none, c)
    else return (if collection.loadAvg then some ⟨usage, []⟩ else none, c)

def step (c : CPUCollector) (collection : Collection) : Option CPUCollector :=
  (c.collectAllMetrics collection).map Prod.snd

/-- The reading that `cpu.usage` compares a new one with; a first call takes the new one itself. -/
def compared (c : CPUCollector) (current : CpuStats) : CpuStats :=
  if c.prevStats.length = 0 then current else c.prevStats

/-- The call reports, from one reading throughout, and no counter went back. -/
structure Reports (c : CPUCollector) (collection : Collection) (current : CpuStats) (report : Report) :
    Prop where
  unchanged : ∀ read ∈ collection.reads, read = some current
  grows : ∀ name prev now, get name (c.compared current) = some prev → get name current = some now →
    prev.idle ≤ now.idle ∧ prev.total ≤ now.total
  returns : (c.collectAllMetrics collection).map Prod.fst = some (some report)

structure Grew (previous current : CpuStats) (i : Nat) (prev now : CpuStat) : Prop where
  was : get (coreName i) previous = some prev
  is : get (coreName i) current = some now
  total : prev.total < now.total

/-- The usage by how much the idle ticks and the total grew. -/
def usageBetween (prev now : CpuStat) : ℚ :=
  100 * (1 - ((now.idle.toNat : ℚ) - prev.idle.toNat) / ((now.total.toNat : ℚ) - prev.total.toNat))

/-- Every core that grew is reported, with its usage between the readings of `cpu.usage`. -/
def Covers (c : CPUCollector) (collection : Collection) : Prop :=
  ∀ current report, c.Reports collection current report →
    ∀ i < c.coreCount, ∀ prev now, Grew (c.compared current) current i prev now →
      (i, usageBetween prev now) ∈ report.cores

/-- No core grew, or the cores are reported and the total of all did not grow. -/
def Quiet (c : CPUCollector) (collection : Collection) : Prop :=
  ∀ current report, c.Reports collection current report →
    ∀ i < c.coreCount, ∀ prev now, Grew (c.compared current) current i prev now →
      c.enablePerCore = true ∧
        (get (utf8 "cpu") (c.compared current)).map (·.total) = (get (utf8 "cpu") current).map (·.total)

variable {c c' : CPUCollector} {reads reads' : List (Option CpuStats)} {current : CpuStats}

theorem collectCPUUsage_spec {usage : ℚ} (unchanged : ∀ read ∈ reads, read = some current)
    (returns : c.collectCPUUsage reads = some (.ok usage, c', reads')) :
    (∀ read ∈ reads', read = some current) ∧ ∃ prev now,
      get (utf8 "cpu") (c.compared current) = some prev ∧ get (utf8 "cpu") current = some now ∧
      c' = { c with prevStats := if now.total - prev.total = 0 then c.compared current else current } := by
  induction reads generalizing c with
  | nil => cases returns
  | cons read reads ih =>
    obtain rfl := unchanged read mem_cons_self
    have later : ∀ read ∈ reads, read = some current := fun read here => unchanged read (mem_cons_of_mem _ here)
    rw [collectCPUUsage] at returns
    split at returns
    · rename_i empty
      have first : c.compared current = current := if_pos empty
      have second : { c with prevStats := current }.compared current = current := ite_self _
      simpa only [first, second] using ih later returns
    · rename_i some_
      have same : c.compared current = c.prevStats := if_neg some_
      rw [same]
      split at returns
      · cases returns
      · cases returns
      · rename_i prev now previous found
        refine ⟨?_, prev, now, previous, found, ?_⟩
        · split at returns <;> cases returns <;> exact later
        · split at returns <;> cases returns
          · rename_i still
            rw [if_pos still]
          · rename_i grew
            rw [if_neg grew]

theorem length_ne_zero_of_get {name : GoString} {stats : CpuStats} {stat : CpuStat}
    (found : get name stats = some stat) : stats.length ≠ 0 := by
  rintro empty
  rw [length_eq_zero_iff.mp empty] at found
  cases found

theorem Reports.cores_eq {collection : Collection} {report : Report}
    (reports : c.Reports collection current report) : ∃ prev now,
      get (utf8 "cpu") (c.compared current) = some prev ∧ get (utf8 "cpu") current = some now ∧
      report.cores = if c.enablePerCore then coreUsages c.coreCount
        (if now.total - prev.total = 0 then c.compared current else current) current else [] := by
  have returns := reports.returns
  unfold collectAllMetrics at returns
  cases first : c.collectCPUUsage collection.reads with
  | none => simp [first] at returns
  | some result =>
    obtain ⟨usage, c', reads⟩ := result
    cases usage with
    | error e => simp [first] at returns
    | ok usage =>
      obtain ⟨left, prev, now, previous, found, rfl⟩ := collectCPUUsage_spec reports.unchanged first
      refine ⟨prev, now, previous, found, ?_⟩
      simp only [first, bind_eq_bind, bind_some] at returns
      split
      · rename_i enabled
        rw [if_pos enabled] at returns
        have some_ : (if now.total - prev.total = 0 then c.compared current else current).length ≠ 0 := by
          split
          · exact length_ne_zero_of_get previous
          · exact length_ne_zero_of_get found
        cases reads with
        | nil => simp [collectPerCoreUsage] at returns
        | cons read reads =>
          obtain rfl := left read mem_cons_self
          rw [collectPerCoreUsage, if_neg some_] at returns
          generalize (if now.total - prev.total = 0 then c.compared current else current) = previous at *
          split at returns
          · cases returns
            rfl
          · cases returns
      · rename_i disabled
        rw [if_neg disabled] at returns
        split at returns
        · cases returns
          rfl
        · cases returns

theorem mem_coreUsages {n i : Nat} {prevStats : CpuStats} {usage : ℚ} :
    (i, usage) ∈ coreUsages n prevStats current ↔ i < n ∧ coreUsage prevStats current i = some usage := by
  simp [coreUsages]

theorem coreUsage_self (i : Nat) : coreUsage current current i = none := by
  unfold coreUsage
  cases get (coreName i) current with
  | none => rfl
  | some stat => simp

theorem coreUsage_of_grew {previous : CpuStats} {i : Nat} {prev now : CpuStat}
    (grew : Grew previous current i prev now) (idle : prev.idle ≤ now.idle) :
    coreUsage previous current i = some (usageBetween prev now) := by
  have total : prev.total ≤ now.total := UInt64.le_of_lt grew.total
  have changed : now.total - prev.total ≠ 0 := by
    intro same
    exact absurd (sub_eq_zero.mp same ▸ grew.total) (UInt64.lt_irrefl _)
  simp only [coreUsage, grew.was, grew.is, bind_eq_bind, bind_some, if_neg changed, usagePercent]
  rw [UInt64.toNat_sub_of_le _ _ idle, UInt64.toNat_sub_of_le _ _ total,
    Nat.cast_sub (le_iff_toNat_le.mp idle), Nat.cast_sub (le_iff_toNat_le.mp total), usageBetween]

theorem covers_iff_quiet (collection : Collection) : c.Covers collection ↔ c.Quiet collection := by
  refine forall₃_congr fun current report reports => forall₂_congr fun i below =>
    forall₃_congr fun prev now grew => ?_
  obtain ⟨p, q, previous, found, cores⟩ := reports.cores_eq
  have usage := coreUsage_of_grew grew (reports.grows _ _ _ grew.was grew.is).1
  rw [cores, previous, found, map_some, map_some, some_inj]
  split
  · rename_i enabled
    rw [mem_coreUsages]
    split
    · rename_i still
      exact iff_of_true ⟨below, usage⟩ ⟨enabled, (sub_eq_zero.mp still).symm⟩
    · rename_i changed
      rw [coreUsage_self]
      exact iff_of_false (fun found => by cases found.2) fun quiet => changed (sub_eq_zero.mpr quiet.2.symm)
  · rename_i disabled
    exact iff_of_false not_mem_nil fun quiet => disabled quiet.1

end CPUCollector

end Monitor.Agent
