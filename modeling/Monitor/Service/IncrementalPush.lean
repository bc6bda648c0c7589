import Mathlib
import Monitor.Lib.Runs

/-! # Pushing what is new

`pullDataFromBroker` of the visualization's `main.go`, for its one host. At every tick it asks the
broker for the records after the last one it sent, and for those of the last five minutes when there
are none. Times are in nanoseconds, the times of records in seconds.
-/

namespace Monitor.Push

open Runs List Option

structure Record where
  id : Nat
  timestamp : Int
  deriving DecidableEq

def second : Int := 10 ^ 9

/-- `Unix` of a time. -/
def unix (t : Int) : Int := t / second

structure Pull where
  /-- What the broker holds. -/
  stored : List Record
  clock : Int
  /-- The entry of `lastSent` for the host. -/
  lastSent : Option Int
  broadcast : List Record

inductive Event where
  | store (record : Record)
  /-- A tick, and whether the two queries get an answer. -/
  | tick (now : Int) (answered fallbackAnswered : Bool)

/-- The answer to `GetMetrics`. -/
def getMetrics (stored : List Record) (startTime endTime : Int) : List Record :=
  stored.filter fun data => unix startTime ≤ data.timestamp ∧ data.timestamp ≤ unix endTime

def maxTS (metrics : List Record) : Int :=
  metrics.foldl (fun maxTS data => if maxTS < data.timestamp then data.timestamp else maxTS) 0

namespace Pull

def start (s : Pull) (now : Int) : Int :=
  match s.lastSent with
  | some ts => if 0 < ts then (ts + 1) * second else now - 30 * second
  | none => now - 30 * second

def metrics (s : Pull) (now : Int) (fallbackAnswered : Bool) : List Record :=
  let metrics := getMetrics s.stored (s.start now) now
  let fb := getMetrics s.stored (now - 300 * second) now
  if metrics.length = 0 ∧ fallbackAnswered ∧ 0 < fb.length then fb else metrics

def push (s : Pull) (now : Int) (metrics : List Record) : Pull where
  stored := s.stored
  clock := now
  lastSent := if 0 < maxTS metrics then some (maxTS metrics) else s.lastSent
  broadcast := s.broadcast ++ metrics

def step (s : Pull) : Event → Option Pull
  | .store record => if s.stored.contains record then none else some { s with stored := s.stored ++ [record] }
  | .tick now answered fallbackAnswered =>
    if now ≤ s.clock then none
    else if answered then some (s.push now (s.metrics now fallbackAnswered))
    else some { s with clock := now }

def init (clock : Int) : Pull := ⟨[], clock, none, []⟩

/-- Where something was sent, there is a newer record, or the last one sent is older than five minutes,
    or a query fails. Before, what was broadcast is older than thirty seconds, and if it is not older than
    five minutes, then there is a record of the last thirty seconds or a query fails. -/
def Spares (s : Pull) : Event → Prop
  | .store _ => True
  | .tick now answered fallbackAnswered => answered = true →
    match s.lastSent with
    | some ts => fallbackAnswered = true → unix now - 300 ≤ ts →
        ∃ data ∈ s.stored, ts < data.timestamp ∧ data.timestamp ≤ unix now
    | none => ∀ data ∈ s.broadcast, data.timestamp ≤ unix now → data.timestamp < unix now - 30 ∧
        (fallbackAnswered = true → unix now - 300 ≤ data.timestamp →
          ∃ newer ∈ s.stored, unix now - 30 ≤ newer.timestamp ∧ newer.timestamp ≤ unix now)

/-- What was sent is stored and not after the last time that was sent. -/
structure Sound (s : Pull) : Prop where
  stored : s.stored.Nodup
  sent : ∀ data ∈ s.broadcast, data ∈ s.stored ∧ data.timestamp ≤ s.lastSent.getD 0
  last : ∀ ts, s.lastSent = some ts → 0 < ts ∧ ts ≤ unix s.clock ∧ ∃ data ∈ s.broadcast, data.timestamp = ts

end Pull

theorem mem_getMetrics {stored : List Record} {startTime endTime : Int} {data : Record} :
    data ∈ getMetrics stored startTime endTime ↔
      data ∈ stored ∧ unix startTime ≤ data.timestamp ∧ data.timestamp ≤ unix endTime := by
  simp [getMetrics]

theorem unix_sub (t n : Int) : unix (t - n * second) = unix t - n := by
  unfold unix second
  omega

theorem unix_mul (n : Int) : unix (n * second) = n := Int.mul_ediv_cancel _ (by decide)

theorem maxTS_spec (metrics : List Record) : (∀ data ∈ metrics, data.timestamp ≤ maxTS metrics) ∧
    (0 < maxTS metrics → ∃ data ∈ metrics, data.timestamp = maxTS metrics) := by
  have all (metrics : List Record) : ∀ top : Int,
      let top' := metrics.foldl (fun maxTS data => if maxTS < data.timestamp then data.timestamp else maxTS) top
      top ≤ top' ∧ (∀ data ∈ metrics, data.timestamp ≤ top') ∧
        (top < top' → ∃ data ∈ metrics, data.timestamp = top') := by
    induction metrics with
    | nil => simp
    | cons data metrics ih =>
      intro top
      simp only [foldl_cons, mem_cons, forall_eq_or_imp, exists_eq_or_imp]
      split
      · rename_i higher
        obtain ⟨grows, bound, reached⟩ := ih data.timestamp
        exact ⟨higher.le.trans grows, ⟨grows, bound⟩, fun _ => grows.eq_or_lt.imp_right reached⟩
      · rename_i lower
        obtain ⟨grows, bound, reached⟩ := ih top
        exact ⟨grows, ⟨(not_lt.mp lower).trans grows, bound⟩, fun more => .inr (reached more)⟩
  exact (all metrics 0).2

namespace Pull

variable {s s' : Pull} {now ts : Int} {fallbackAnswered : Bool}

/-- A record that is pulled is stored, not after `now`, and either not before the start of the query or one
    of the last five minutes where the query finds nothing. -/
theorem mem_metrics {data : Record} : data ∈ s.metrics now fallbackAnswered ↔
    data ∈ s.stored ∧ data.timestamp ≤ unix now ∧ (unix (s.start now) ≤ data.timestamp ∨
      fallbackAnswered = true ∧ unix now - 300 ≤ data.timestamp ∧
        ∀ newer ∈ s.stored, newer.timestamp ≤ unix now → newer.timestamp < unix (s.start now)) := by
  have query {data : Record} : data ∈ getMetrics s.stored (s.start now) now ↔ _ := mem_getMetrics
  have fallback {data : Record} : data ∈ getMetrics s.stored (now - 300 * second) now ↔ _ := mem_getMetrics
  rw [unix_sub] at fallback
  unfold metrics
  simp only
  split
  · rename_i replays
    have empty := eq_nil_iff_forall_not_mem.mp (length_eq_zero_iff.mp replays.1)
    grind
  · rename_i found
    constructor
    · grind
    · rintro ⟨stored, past, since | ⟨answered, window, early⟩⟩
      · exact query.mpr ⟨stored, since, past⟩
      · refine absurd ⟨?_, answered, length_pos_of_mem (fallback.mpr ⟨stored, window, past⟩)⟩ found
        refine length_eq_zero_iff.mpr (eq_nil_iff_forall_not_mem.mpr fun newer mem => ?_)
        obtain ⟨mem, since, past⟩ := query.mp mem
        exact absurd (early newer mem past) since.not_gt

theorem Sound.metrics_nodup (sound : s.Sound) : (s.metrics now fallbackAnswered).Nodup := by
  unfold metrics
  simp only
  split
  · exact sound.stored.filter _
  · exact sound.stored.filter _

theorem unix_start_none (last : s.lastSent = none) : unix (s.start now) = unix now - 30 := by
  simp only [start, last, unix_sub]

theorem Sound.unix_start (sound : s.Sound) (last : s.lastSent = some ts) : unix (s.start now) = ts + 1 := by
  simp only [start, last, if_pos (sound.last ts last).1, unix_mul]

theorem Sound.later (sound : s.Sound) (last : s.lastSent = some ts)
    (spares : s.Spares (.tick now true fallbackAnswered)) :
    ∀ data ∈ s.metrics now fallbackAnswered, ts < data.timestamp := by
  intro data mem
  obtain ⟨stored, past, since | ⟨answered, window, early⟩⟩ := mem_metrics.mp mem
  · rwa [sound.unix_start last] at since
  · rw [sound.unix_start last] at early
    simp only [Spares, last, true_imp_iff] at spares
    by_contra old
    obtain ⟨newer, mem, after, past⟩ := spares answered (by omega)
    exact absurd (early newer mem past) (Int.lt_add_one_iff.mp.mt after.not_ge)

theorem Sound.fresh_iff (sound : s.Sound) (advances : s.clock < now) :
    (∀ data ∈ s.metrics now fallbackAnswered, data ∉ s.broadcast) ↔
      s.Spares (.tick now true fallbackAnswered) := by
  cases last : s.lastSent with
  | none =>
    have stored (data : Record) (sent : data ∈ s.broadcast) := (sound.sent data sent).1
    simp only [Spares, last, true_imp_iff, mem_metrics, unix_start_none last]
    grind
  | some ts =>
    constructor
    · simp only [Spares, last, true_imp_iff]
      intro fresh answered recent
      -- otherwise the last record that was sent is within the five minutes
      obtain ⟨_, past, newest, sent, same⟩ := sound.last ts last
      have passed : unix s.clock ≤ unix now := Int.ediv_le_ediv (by decide) advances.le
      by_contra none_
      refine fresh newest (mem_metrics.mpr ⟨(sound.sent newest sent).1, by omega, .inr ⟨answered, ?_, ?_⟩⟩) sent
      · omega
      · intro newer stored past
        rw [sound.unix_start last]
        by_contra later
        exact none_ ⟨newer, stored, by omega, past⟩
    · intro spares data mem sent
      have early := (sound.sent data sent).2
      rw [last] at early
      exact absurd (sound.later last spares data mem) early.not_gt

theorem Sound.push (sound : s.Sound) (advances : s.clock < now)
    (spares : s.Spares (.tick now true fallbackAnswered)) :
    (s.push now (s.metrics now fallbackAnswered)).Sound := by
  obtain ⟨bound, reached⟩ := maxTS_spec (s.metrics now fallbackAnswered)
  have passed : unix s.clock ≤ unix now := Int.ediv_le_ediv (by decide) advances.le
  have nonneg : 0 ≤ s.lastSent.getD 0 := by
    cases last : s.lastSent with
    | none => exact le_rfl
    | some ts => exact (sound.last ts last).1.le
  unfold Pull.push
  split
  · rename_i pos
    obtain ⟨top, mem, same⟩ := reached pos
    have grows : s.lastSent.getD 0 ≤ maxTS (s.metrics now fallbackAnswered) := by
      cases last : s.lastSent with
      | none => exact pos.le
      | some ts => exact (same ▸ sound.later last spares top mem).le
    refine ⟨sound.stored, fun data sent => ?_, ?_⟩
    · cases mem_append.mp sent with
      | inl old => exact ⟨(sound.sent data old).1, (sound.sent data old).2.trans grows⟩
      | inr new => exact ⟨(mem_metrics.mp new).1, bound data new⟩
    · rintro _ ⟨⟩
      exact ⟨pos, same ▸ (mem_metrics.mp mem).2.1, top, mem_append_right _ mem, same⟩
  · rename_i early
    refine ⟨sound.stored, fun data sent => ?_, fun ts last => ?_⟩
    · cases mem_append.mp sent with
      | inl old => exact sound.sent data old
      | inr new => exact ⟨(mem_metrics.mp new).1, ((bound data new).trans (not_lt.mp early)).trans nonneg⟩
    · obtain ⟨pos, past, newest, sent, same⟩ := sound.last ts last
      exact ⟨pos, past.trans passed, newest, mem_append_left _ sent, same⟩

theorem step_cases {e : Event} (taken : s.step e = some s') :
    (∃ record ∉ s.stored, e = .store record ∧ s' = { s with stored := s.stored ++ [record] }) ∨
    ∃ now fallbackAnswered, s.clock < now ∧ (e = .tick now false fallbackAnswered ∧ s' = { s with clock := now } ∨
      e = .tick now true fallbackAnswered ∧ s' = s.push now (s.metrics now fallbackAnswered)) := by
  cases e with
  | store record =>
    simp only [step, contains_iff_mem, ite_none_left_eq_some, some_inj] at taken
    exact .inl ⟨record, taken.1, rfl, taken.2.symm⟩
  | tick now answered fallbackAnswered =>
    simp only [step, ite_none_left_eq_some, not_le] at taken
    obtain ⟨advances, taken⟩ := taken
    refine .inr ⟨now, fallbackAnswered, advances, ?_⟩
    cases answered with
    | false => exact .inl ⟨rfl, some_inj.mp taken.symm⟩
    | true => exact .inr ⟨rfl, some_inj.mp taken.symm⟩

/-- For every sequence of ticks at later and later times, and of records that are stored between them,
    no record is broadcast twice exactly when every tick spares. -/
theorem run_once_iff (clock : Int) (events : List Event) :
    Throughout step (fun s => s.broadcast.Nodup) (init clock) events ↔
      EachStep step Spares (init clock) events := by
  have once_iff {s : Pull} {now : Int} {fallbackAnswered : Bool} (sound : s.Sound) (once : s.broadcast.Nodup)
      (advances : s.clock < now) : (s.broadcast ++ s.metrics now fallbackAnswered).Nodup ↔
        s.Spares (.tick now true fallbackAnswered) := by
    rw [nodup_append', ← sound.fresh_iff advances]
    refine ⟨fun apart data member sent => apart.2.2 sent member, fun fresh => ⟨once, sound.metrics_nodup, ?_⟩⟩
    exact fun data sent member => fresh data member sent
  refine throughout_iff Sound ?_ ?_ events
    ⟨.nil, fun _ sent => absurd sent not_mem_nil, fun _ last => by cases last⟩ .nil
  · intro s e s' sound once taken once'
    obtain ⟨record, new, rfl, rfl⟩ | ⟨now, _, advances, ⟨rfl, rfl⟩ | ⟨rfl, rfl⟩⟩ := step_cases taken
    · refine ⟨?_, fun data sent => ?_, sound.last⟩
      · exact nodup_append'.mpr ⟨sound.stored, nodup_singleton _, disjoint_singleton.mpr new⟩
      · exact (sound.sent data sent).imp_left (mem_append_left _)
    · refine ⟨sound.stored, sound.sent, fun ts last => ?_⟩
      obtain ⟨positive, past, newest⟩ := sound.last ts last
      exact ⟨positive, past.trans (Int.ediv_le_ediv (by decide) advances.le), newest⟩
    · exact sound.push advances ((once_iff sound once advances).mp once')
  · intro s e s' sound once taken
    obtain ⟨record, new, rfl, rfl⟩ | ⟨now, _, advances, ⟨rfl, rfl⟩ | ⟨rfl, rfl⟩⟩ := step_cases taken
    · exact iff_of_true once trivial
    · exact iff_of_true once fun answered => by cases answered
    · exact once_iff sound once advances

/-- A record of second 100 is broadcast at second 101, and again at second 103. -/
theorem quietTick_replays :
    ¬ Throughout step (fun s => s.broadcast.Nodup) (init 0)
      [.store ⟨0, 100⟩, .tick (101 * second) true true, .tick (103 * second) true true] := by
  exact not_throughout rfl (by decide +kernel)

end Pull

end Monitor.Push
