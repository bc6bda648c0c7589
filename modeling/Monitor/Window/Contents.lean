import Monitor.Window.RunningSums

/-! # Contents of a window of fixed size

What a window that does not adapt its size has to show is said by its history: of the values
that arrived since the last reset, the last ones that it has room for, without those that are
too old. Values leave the window when there is no more room and when they are too old at the
time of some call, which they then are at every later time.
-/

namespace Monitor.Window

open Methods

section Histories

variable {F : Type}

/-- When the call looks at the clock, as far as a window of fixed size is concerned. -/
def Call.times : Call F → List Int
  | .add _ now _ | .addBatch _ now _ | .average now | .min now | .max now | .count now | .valuesAt now
  | .standardDeviation now | .variance now | .percentile _ now | .rate now => [now]
  | .getStats clock => (List.range 10).map clock
  | .reset | .setAdaptive .. | .getWindowInfo => []

/-- Every call but `SetAdaptive`. -/
def Call.keepsMode : Call F → Bool
  | .setAdaptive .. => false
  | _ => true

/-- A value and the time when it arrived. -/
abbrev Entry (F : Type) : Type := F × Int

def record (history : List (Entry F)) : Call F → List (Entry F)
  | .add value now _ => history ++ [(value, now)]
  | .addBatch values now _ => history ++ values.map (·, now)
  | .reset => []
  | _ => history

def history (calls : List (Call F)) : List (Entry F) := calls.foldl record []

/-- The age at most `maxAge`, which says nothing unless it is positive. -/
def fresh (maxAge now : Int) (entry : Entry F) : Bool := maxAge ≤ 0 ∨ now - entry.2 ≤ maxAge

variable {maxAge : Int} {entry : Entry F}

theorem fresh_iff {now : Int} :
    fresh maxAge now entry = true ↔ maxAge ≤ 0 ∨ now - entry.2 ≤ maxAge :=
  decide_eq_true_iff

theorem not_fresh_later {now later : Int} (order : now ≤ later)
    (old : fresh maxAge now entry = false) : fresh maxAge later entry = false := by
  simp only [fresh, decide_eq_false_iff_not] at *
  omega

theorem fresh_newer {now : Int} {older newer : Entry F} (order : older.2 ≤ newer.2)
    (young : fresh maxAge now older = true) : fresh maxAge now newer = true := by
  simp only [fresh_iff] at *
  omega

theorem fresh_now (maxAge now : Int) (value : F) : fresh maxAge now (value, now) = true := by
  simp only [fresh_iff]
  omega

def Ordered (entries : List (Entry F)) : Prop := entries.Pairwise fun older newer => older.2 ≤ newer.2

theorem Ordered.dropWhile {entries : List (Entry F)} (ordered : Ordered entries) (maxAge now : Int) :
    entries.dropWhile (fun entry => !fresh maxAge now entry) = entries.filter (fresh maxAge now) := by
  induction entries with
  | nil => rfl
  | cons entry entries ih =>
    obtain ⟨first, rest⟩ := List.pairwise_cons.mp ordered
    cases young : fresh maxAge now entry with
    | true =>
      have kept : entries.filter (fresh maxAge now) = entries :=
        List.filter_eq_self.mpr fun other mem => fresh_newer (first other mem) young
      simp [young, kept]
    | false =>
      simpa [young] using ih rest

theorem record_ordered {entries : List (Entry F)} (ordered : Ordered entries) (call : Call F)
    (past : ∀ entry ∈ entries, ∀ now ∈ call.times, entry.2 ≤ now) : Ordered (record entries call) := by
  have added (values : List F) (now : Int) (past : ∀ entry ∈ entries, entry.2 ≤ now) :
      Ordered (entries ++ values.map (·, now)) := by
    refine List.pairwise_append.mpr ⟨ordered, ?_, ?_⟩
    · exact List.pairwise_map.mpr (List.pairwise_of_forall fun _ _ => le_rfl)
    · intro older mem newer added
      obtain ⟨value, _, rfl⟩ := List.mem_map.mp added
      exact past older mem
  cases call with
  | add value now later =>
    exact added [value] now fun entry mem => past entry mem now (by simp [Call.times])
  | addBatch values now later =>
    exact added values now fun entry mem => past entry mem now (by simp [Call.times])
  | reset => exact List.Pairwise.nil
  | _ => exact ordered

theorem mem_record {entries : List (Entry F)} {call : Call F}
    (mem : entry ∈ record entries call) : entry ∈ entries ∨ entry.2 ∈ call.times := by
  cases call with
  | add value now later =>
    simp only [record, List.mem_append, List.mem_singleton] at mem
    cases mem with
    | inl old => exact .inl old
    | inr new =>
      subst new
      exact .inr (by simp [Call.times])
  | addBatch values now later =>
    simp only [record, List.mem_append, List.mem_map] at mem
    cases mem with
    | inl old => exact .inl old
    | inr new =>
      obtain ⟨value, _, rfl⟩ := new
      exact .inr (by simp [Call.times])
  | reset => cases mem
  | _ => exact .inl mem

theorem foldl_record_ordered (calls : List (Call F)) {entries : List (Entry F)} (ordered : Ordered entries)
    (past : ∀ entry ∈ entries, ∀ now ∈ calls.flatMap Call.times, entry.2 ≤ now)
    (times : (calls.flatMap Call.times).Pairwise (· ≤ ·)) : Ordered (calls.foldl record entries) := by
  induction calls generalizing entries with
  | nil => exact ordered
  | cons call calls ih =>
    simp only [List.flatMap_cons, List.pairwise_append, List.mem_append] at times past
    obtain ⟨_, later, across⟩ := times
    have first := record_ordered ordered call fun entry mem now here => past entry mem now (.inl here)
    refine ih first ?_ later
    intro entry mem now soon
    cases mem_record mem with
    | inl old => exact past entry old now (.inr soon)
    | inr new => exact across entry.2 new now soon

end Histories

namespace SlidingWindow

section Entries

variable {F : Type}

def entries (w : SlidingWindow F) : List (Entry F) := w.values.zip w.timestamps

variable {w : SlidingWindow F}

theorem map_entries_fst (paired : w.values.length = w.timestamps.length) :
    w.entries.map Prod.fst = w.values :=
  List.map_fst_zip paired.le

theorem map_entries_snd (paired : w.values.length = w.timestamps.length) :
    w.entries.map Prod.snd = w.timestamps :=
  List.map_snd_zip paired.ge

variable [Field F]

theorem entries_dropFront (w : SlidingWindow F) (n : Nat) : (w.dropFront n).entries = w.entries.drop n := by
  simp [entries, dropFront, List.zip, List.drop_zipWith]

theorem entries_append (paired : w.values.length = w.timestamps.length) (now : Int) (value : F) :
    (w.append now value).entries = w.entries ++ [(value, now)] := by
  simp [entries, append, List.zip_append paired]

omit [Field F] in
theorem stale_eq (paired : w.values.length = w.timestamps.length) (now : Int) :
    w.stale now = (w.entries.takeWhile fun entry => !fresh w.maxAge now entry).length := by
  unfold stale
  split
  · rename_i ageless
    have none : w.entries.takeWhile (fun entry => !fresh w.maxAge now entry) = [] := by
      cases w.entries with
      | nil => rfl
      | cons entry rest => simp [fresh, ageless]
    simp [none]
  · rename_i limited
    rw [← map_entries_snd paired, List.takeWhile_map, List.length_map]
    congr 2
    funext entry
    simp only [Function.comp, fresh, ← decide_not, decide_eq_decide]
    omega

theorem entries_cleaned (paired : w.values.length = w.timestamps.length) (now : Int) :
    (w.dropFront (w.stale now)).entries = w.entries.dropWhile fun entry => !fresh w.maxAge now entry := by
  have split := List.takeWhile_append_dropWhile (p := fun entry => !fresh w.maxAge now entry) (l := w.entries)
  simp only [entries_dropFront, stale_eq paired]
  exact (congrArg (List.drop _) split.symm).trans List.drop_left

theorem entries_pushed (paired : w.values.length = w.timestamps.length) (now : Int) (value : F) :
    (w.pushed now value).entries =
      w.entries.drop (if w.size ≤ (w.entries.length : Int) then 1 else 0) ++ [(value, now)] := by
  have paired' (n : Nat) : (w.dropFront n).values.length = (w.dropFront n).timestamps.length := by
    simp [dropFront, paired]
  have count : w.entries.length = w.values.length := by simp [entries, paired]
  simp only [pushed, entries_append (paired' _), entries_dropFront, count]

end Entries

/-- A window that does not adapt its size and to which values can be added. -/
structure Steady {F : Type} (w : SlidingWindow F) : Prop where
  paired : w.values.length = w.timestamps.length
  size_pos : 1 ≤ w.size
  fixed : w.adaptiveSize = false

/-- The window holds the last `n` entries of the history, except for old ones in front that are not
    to be shown at the given time any more. -/
structure Shows {F : Type} (n : Nat) (maxAge instant : Int) (history : List (Entry F))
    (w : SlidingWindow F) : Prop extends Steady w where
  size_eq : w.size = n
  maxAge_eq : w.maxAge = maxAge
  split : ∃ gone, history.rtake n = gone ++ w.entries ∧ ∀ entry ∈ gone, fresh maxAge instant entry = false

section Shows

variable {F : Type} {n : Nat} {maxAge instant : Int} {history : List (Entry F)} {w : SlidingWindow F}

theorem Steady.counted (steady : w.Steady) (k : Nat) : (w.counted k).Steady :=
  ⟨steady.paired, steady.size_pos, steady.fixed⟩

theorem Shows.counted (shown : w.Shows n maxAge instant history) (k : Nat) :
    (w.counted k).Shows n maxAge instant history :=
  ⟨shown.toSteady.counted k, shown.size_eq, shown.maxAge_eq, shown.split⟩

theorem Shows.ordered_entries (shown : w.Shows n maxAge instant history) (ordered : Ordered history) :
    Ordered w.entries := by
  obtain ⟨gone, split, _⟩ := shown.split
  have last : Ordered (gone ++ w.entries) := by
    simp only [← split]
    exact ordered.sublist (List.drop_sublist _ _)
  exact (List.pairwise_append.mp last).2.1

variable [Field F]

theorem Steady.dropFront (steady : w.Steady) (k : Nat) : (w.dropFront k).Steady :=
  ⟨by simp [SlidingWindow.dropFront, steady.paired], steady.size_pos, steady.fixed⟩

theorem Steady.pushed (steady : w.Steady) (now : Int) (value : F) : (w.pushed now value).Steady :=
  ⟨paired_pushed steady.paired now value, steady.size_pos, steady.fixed⟩

variable {now : Int}

theorem Shows.cleaned (shown : w.Shows n maxAge instant history) (past : now ≤ instant) :
    (w.dropFront (w.stale now)).Shows n maxAge instant history := by
  obtain ⟨gone, split, old⟩ := shown.split
  refine ⟨shown.dropFront _, shown.size_eq, shown.maxAge_eq,
    gone ++ w.entries.takeWhile (fun entry => !fresh w.maxAge now entry), ?_, ?_⟩
  · simp only [entries_cleaned shown.paired, List.append_assoc, List.takeWhile_append_dropWhile, split]
  · intro entry mem
    cases List.mem_append.mp mem with
    | inl before => exact old entry before
    | inr expired =>
      have aged := List.mem_takeWhile_imp expired
      simp only [shown.maxAge_eq, Bool.not_eq_true'] at aged
      exact not_fresh_later past aged

theorem cleanExpired_keeps (past : now ≤ instant) :
    Keeps (Shows n maxAge instant history) (cleanExpired now : Method F Unit) := by
  intro w shown
  simp only [cleanExpired_eq shown.paired, after]
  exact shown.cleaned past

theorem Shows.pushed (shown : w.Shows n maxAge instant history) (now : Int) (value : F) :
    (w.pushed now value).Shows n maxAge instant (history ++ [(value, now)]) := by
  obtain ⟨gone, split, old⟩ := shown.split
  obtain ⟨m, rfl⟩ : ∃ m, n = m + 1 := by
    have pos := shown.size_pos
    have size := shown.size_eq
    exact ⟨n - 1, by omega⟩
  have length : (history.rtake (m + 1)).length = gone.length + w.entries.length := by simp [split]
  have most : (history.rtake (m + 1)).length ≤ m + 1 := by
    simp only [List.rtake, List.length_drop]
    omega
  have shorter : history.rtake m = (history.rtake (m + 1)).rtake m := by
    simp only [List.rtake, List.drop_drop, List.length_drop]
    congr 1
    omega
  refine ⟨shown.toSteady.pushed now value, shown.size_eq, shown.maxAge_eq, ?_⟩
  simp only [entries_pushed shown.paired, shown.size_eq, List.rtake_concat_succ, shorter, split]
  by_cases full : m + 1 ≤ w.entries.length
  · -- every entry of the history that counts is still there
    have none : gone = [] := List.length_eq_zero_iff.mp (by omega)
    have one : w.entries.length - m = 1 := by omega
    have evicts : ((m + 1 : Nat) : Int) ≤ (w.entries.length : Int) := by omega
    refine ⟨[], ?_, by simp⟩
    simp only [none, List.nil_append, List.rtake, one, if_pos evicts]
  · have part : (gone ++ w.entries).rtake m =
        gone.drop (gone.length + w.entries.length - m) ++ w.entries := by
      simp only [List.rtake, List.length_append]
      exact List.drop_append_of_le_length (by omega)
    have room : ¬ ((m + 1 : Nat) : Int) ≤ (w.entries.length : Int) := by omega
    refine ⟨gone.drop (gone.length + w.entries.length - m), ?_, ?_⟩
    · simp only [part, if_neg room, List.drop_zero, List.append_assoc]
    · exact fun entry mem => old entry (List.mem_of_mem_drop mem)

theorem Shows.foldl_pushed (shown : w.Shows n maxAge instant history) (values : List F) (now : Int) :
    (values.foldl (SlidingWindow.pushed now) w).Shows n maxAge instant
      (history ++ values.map (·, now)) := by
  induction values generalizing w history with
  | nil => simpa using shown
  | cons value values ih => simpa using ih (shown.pushed now value)

theorem Shows.values_cleaned (shown : w.Shows n maxAge now history) (ordered : Ordered history) :
    (w.dropFront (w.stale now)).values = ((history.rtake n).filter (fresh maxAge now)).map Prod.fst := by
  obtain ⟨gone, split, old⟩ := shown.split
  have none : gone.filter (fresh maxAge now) = [] :=
    List.filter_eq_nil_iff.mpr fun entry mem => by simp [old entry mem]
  calc (w.dropFront (w.stale now)).values
      = (w.dropFront (w.stale now)).entries.map Prod.fst :=
        (map_entries_fst (shown.dropFront (w.stale now)).paired).symm
    _ = (w.entries.filter (fresh maxAge now)).map Prod.fst := by
        simp only [entries_cleaned shown.paired, shown.maxAge_eq, (shown.ordered_entries ordered).dropWhile]
    _ = ((history.rtake n).filter (fresh maxAge now)).map Prod.fst := by
        simp only [split, List.filter_append, none, List.nil_append]

theorem Shows.valuesAt_eq (shown : w.Shows n maxAge now history) (ordered : Ordered history) :
    valuesAt now w = .ok (((history.rtake n).filter (fresh maxAge now)).map Prod.fst)
      (w.dropFront (w.stale now)) := by
  simp only [valuesAt, reading, bind_ok (cleanExpired_eq shown.paired now), get_bind, pure_apply,
    shown.values_cleaned ordered]

def Settled (w : SlidingWindow F) (now : Int) : Prop := ∀ entry ∈ w.entries, fresh w.maxAge now entry = true

omit [Field F] in
theorem Settled.stale_eq_zero (settled : w.Settled now) (steady : w.Steady) : w.stale now = 0 := by
  simp only [stale_eq steady.paired, List.length_eq_zero_iff, List.takeWhile_eq_nil_iff]
  intro ne
  simp [settled _ (List.getElem_mem ne)]

theorem Settled.pushed (settled : w.Settled now) (steady : w.Steady) (value : F) :
    (w.pushed now value).Settled now := by
  intro entry mem
  simp only [entries_pushed steady.paired, List.mem_append, List.mem_singleton] at mem
  cases mem with
  | inl old => exact settled entry (List.mem_of_mem_drop old)
  | inr new =>
    subst new
    exact fresh_now w.maxAge now value

theorem Shows.settled (shown : w.Shows n maxAge now history) (ordered : Ordered history) :
    (w.dropFront (w.stale now)).Settled now := by
  intro entry mem
  simp only [entries_cleaned shown.paired, (shown.ordered_entries ordered).dropWhile] at mem
  exact (List.mem_filter.mp mem).2

theorem foldl_pushed_counted (values : List F) (now : Int) (w : SlidingWindow F) (k : Nat) :
    values.foldl (pushed now) (w.counted k) =
      (values.foldl (pushed now) w).counted k := by
  induction values generalizing w with
  | nil => rfl
  | cons value values ih => exact ih (w.pushed now value)

omit [Field F] in
theorem counted_counted (w : SlidingWindow F) (k l : Nat) : (w.counted k).counted l = w.counted (k + l) := by
  simp only [counted, GoText.wrap64]
  congr 1
  omega

variable [LinearOrder F] (toInt : F → Int)

theorem Steady.addBatch_eq (steady : w.Steady) (values : List F) (now later : Int) :
    addBatch toInt values now later w = .ok () ((values.foldl (SlidingWindow.pushed now)
        (w.dropFront (w.stale now))).counted values.length) := by
  have enqueued := enqueue_eq values now steady.paired steady.size_pos
  obtain ⟨values', timestamps', sum', sumSquared', frame⟩ :=
    foldl_pushed_frame values now (w.dropFront (w.stale now))
  have fixed : ((values.foldl (SlidingWindow.pushed now)
      (w.dropFront (w.stale now))).counted values.length).adaptiveSize = false := by
    simp only [frame]
    exact steady.fixed
  have moved := foldl_pushed_counted values now (w.dropFront (w.stale now)) values.length
  simp only [SlidingWindow.addBatch_eq, bind_ok enqueued]
  refine (congrArg (adapt toInt later) moved).trans ?_
  simp [adapt, fixed]

theorem Settled.forM_add (settled : w.Settled now) (steady : w.Steady) (values : List F)
    (later : Int) (k : Nat) : values.forM (fun value => add toInt value now later) (w.counted k) =
      .ok () ((values.foldl (SlidingWindow.pushed now) w).counted (k + values.length)) := by
  induction values generalizing w k with
  | nil => rfl
  | cons value values ih =>
    have none : (w.counted k).stale now = 0 := settled.stale_eq_zero steady
    have one : add toInt value now later (w.counted k) = .ok () ((w.pushed now value).counted (k + 1)) := by
      simp only [add_eq_addBatch toInt, (steady.counted k).addBatch_eq toInt, none, dropFront_zero,
        foldl_pushed_counted, counted_counted]
      rfl
    refine (bind_ok one _).trans ((ih (settled.pushed steady value) (steady.pushed now value) _).trans ?_)
    simp only [List.foldl_cons, List.length_cons, Nat.add_assoc, Nat.add_comm 1]

theorem Shows.addBatch_eq_forM (shown : w.Shows n maxAge now history) (ordered : Ordered history)
    {values : List F} (ne : values ≠ []) (later later' : Int) :
    addBatch toInt values now later w = values.forM (fun value => add toInt value now later') w := by
  cases values with
  | nil => exact absurd rfl ne
  | cons value values =>
    have steady := shown.toSteady.dropFront (w.stale now)
    have settled := (shown.settled ordered).pushed steady value
    have first : add toInt value now later' w =
        .ok () (((w.dropFront (w.stale now)).pushed now value).counted 1) := by
      simp only [add_eq_addBatch toInt, shown.toSteady.addBatch_eq toInt]
      rfl
    have rest := settled.forM_add toInt (steady.pushed now value) values later' 1
    refine (shown.toSteady.addBatch_eq toInt _ now later).trans ?_
    refine Eq.trans ?_ ((bind_ok first _).trans rest).symm
    simp only [List.foldl_cons, List.length_cons, Nat.add_comm]

end Shows

end SlidingWindow

section Fixed

variable {F : Type} [Field F] [LinearOrder F] (sqrt : F → F) (toInt : F → Int)

open SlidingWindow

theorem perform_shows {n : Nat} {maxAge instant : Int} {entries : List (Entry F)} {w : SlidingWindow F}
    (shown : w.Shows n maxAge instant entries) {call : Call F} (keepsMode : call.keepsMode = true)
    (past : ∀ now ∈ call.times, now ≤ instant) :
    (after (perform sqrt toInt call w)).Shows n maxAge instant (record entries call) := by
  have batch (values : List F) (now later : Int) (past : now ≤ instant) :
      (after (addBatch toInt values now later w)).Shows n maxAge instant
        (entries ++ values.map (·, now)) := by
    simp only [shown.toSteady.addBatch_eq toInt values now later, after]
    exact ((shown.cleaned past).foldl_pushed values now).counted values.length
  have read {A : Type} {m : Method F A} (keeps : Keeps (Shows n maxAge instant entries) m) :=
    (keeps.bind fun _ => (Safe.pure ()).keeps) w shown
  have clean (now : Int) (here : now ∈ call.times) :
      Keeps (Shows n maxAge instant entries) (cleanExpired now : Method F Unit) :=
    cleanExpired_keeps (past now here)
  cases call with
  | add value now later =>
    simp only [perform, add_eq_addBatch toInt]
    exact batch [value] now later (past now (by simp [Call.times]))
  | addBatch values now later => exact batch values now later (past now (by simp [Call.times]))
  | reset =>
    exact ⟨⟨rfl, shown.size_pos, shown.fixed⟩, shown.size_eq, shown.maxAge_eq, [],
      List.rtake_nil n, by simp⟩
  | setAdaptive => cases keepsMode
  | average now | min now | max now | count now | valuesAt now | standardDeviation now
  | percentile p now | rate now => exact read (reading_keeps _ (clean now (by simp [Call.times])))
  | variance now => exact read (variance_keeps sqrt (clean now (by simp [Call.times])))
  | getStats clock =>
    refine read (getStats_keeps sqrt toInt fun i small => clean (clock i) ?_)
    exact List.mem_map_of_mem (List.mem_range.mpr small)
  | getWindowInfo => exact shown

def windowAfter (w : SlidingWindow F) (calls : List (Call F)) : SlidingWindow F :=
  calls.foldl (fun w call => after (perform sqrt toInt call w)) w

theorem windowAfter_shows {n : Nat} {maxAge instant : Int} (calls : List (Call F))
    {entries : List (Entry F)} {w : SlidingWindow F} (shown : w.Shows n maxAge instant entries)
    (keepsMode : ∀ call ∈ calls, call.keepsMode = true)
    (past : ∀ now ∈ calls.flatMap Call.times, now ≤ instant) :
    (windowAfter sqrt toInt w calls).Shows n maxAge instant (calls.foldl record entries) := by
  induction calls generalizing entries w with
  | nil => exact shown
  | cons call calls ih =>
    simp only [List.flatMap_cons, List.mem_append] at past
    obtain ⟨first, rest⟩ := List.forall_mem_cons.mp keepsMode
    have one := perform_shows sqrt toInt shown first fun now here => past now (.inl here)
    exact ih one rest fun now later => past now (.inr later)

/-- For every window of fixed size `n ≥ 1` and all calls at times that do not decrease, `Values` at
    a later time returns those of the last `n` values since the last reset that are not too old,
    in order of arrival; and a batch that is not empty does what its values do one by one. -/
theorem contents_of_history {n : Nat} (positive : 1 ≤ n) (maxAge created : Int) (calls : List (Call F))
    (keepsMode : ∀ call ∈ calls, call.keepsMode = true) (now : Int)
    (ordered : (calls.flatMap Call.times ++ [now]).Pairwise (· ≤ ·)) :
    (∃ w', valuesAt now (windowAfter sqrt toInt (newSlidingWindow n maxAge created) calls) =
        .ok ((((history calls).rtake n).filter (fresh maxAge now)).map Prod.fst) w') ∧
      ∀ values : List F, values ≠ [] → ∀ later later' : Int,
        addBatch toInt values now later
            (windowAfter sqrt toInt (newSlidingWindow n maxAge created) calls) =
          values.forM (fun value => add toInt value now later')
            (windowAfter sqrt toInt (newSlidingWindow n maxAge created) calls) := by
  obtain ⟨times, _, past⟩ := List.pairwise_append.mp ordered
  have arrived : Ordered (history calls) :=
    foldl_record_ordered calls List.Pairwise.nil (by simp) times
  have size : (1 : Int) ≤ n := by exact_mod_cast positive
  have new : (newSlidingWindow n maxAge created : SlidingWindow F).Shows n maxAge now [] :=
    ⟨⟨rfl, size, rfl⟩, rfl, rfl, [], List.rtake_nil n, by simp⟩
  have shown := windowAfter_shows sqrt toInt calls new keepsMode
    fun earlier member => past earlier member now (by simp)
  exact ⟨⟨_, shown.valuesAt_eq arrived⟩, fun values nonempty later later' =>
    shown.addBatch_eq_forM toInt arrived nonempty later later'⟩

end Fixed

theorem contents_of_history_two :
    1 ≤ 2 ∧ (∀ call ∈ [Call.add (1 : ℚ) 0 0, .reset, .addBatch [2, 3, 4] 5 5, .average 7],
        call.keepsMode = true) ∧
      ([Call.add (1 : ℚ) 0 0, .reset, .addBatch [2, 3, 4] 5 5, .average 7].flatMap Call.times ++
        [14]).Pairwise (· ≤ ·) ∧
      ∃ w', SlidingWindow.valuesAt 14 (windowAfter (fun x => x) Int.floor
          (SlidingWindow.newSlidingWindow 2 10 0)
          [Call.add (1 : ℚ) 0 0, .reset, .addBatch [2, 3, 4] 5 5, .average 7]) = .ok [3, 4] w' :=
  ⟨by decide, by decide, by decide,
    (contents_of_history (fun x => x) Int.floor (n := 2) (by decide) 10 0 _ (by decide) 14 (by decide)).1⟩

end Monitor.Window
