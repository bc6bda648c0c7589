import Monitor.Window.RunningSums

/-! # Adapting the size of a window

A window that is filled to less than three tenths shrinks, and then cuts off as many of its oldest
values as the size goes down by. That many are there only by chance, and all of them would
have fitted into the smaller window, so that a window keeps what it should exactly as long as it
never shrinks.
-/

namespace Monitor.Window

open Methods Runs
open Analysis (timeSub)

namespace SlidingWindow

section Enqueued

variable {F : Type} [Field F]

theorem length_pushed {w : SlidingWindow F} (fits : (w.values.length : Int) ≤ w.size)
    (pos : 1 ≤ w.size) (now : Int) (value : F) :
    ((w.pushed now value).values.length : Int) = min w.size (w.values.length + 1) := by
  simp only [pushed, append, dropFront, List.length_append, List.length_drop, List.length_singleton]
  split <;> omega

theorem length_foldl_pushed (values : List F) (now : Int) {w : SlidingWindow F}
    (fits : (w.values.length : Int) ≤ w.size) (pos : 1 ≤ w.size) :
    ((values.foldl (pushed now) w).values.length : Int) =
      min w.size (w.values.length + values.length) := by
  induction values generalizing w with
  | nil =>
    simp only [List.foldl_nil, List.length_nil]
    omega
  | cons value values ih =>
    have one := length_pushed fits pos now value
    have size : (w.pushed now value).size = w.size := rfl
    have rest := ih (w := w.pushed now value) (by omega) (by omega)
    simp only [List.foldl_cons, List.length_cons]
    omega

end Enqueued

section Shrinking

variable {F : Type} [Field F] [LinearOrder F] (toInt : F → Int)

/-- The number of values in the window after `n` more are added. -/
def held (w : SlidingWindow F) (n : Nat) (now : Int) : Int :=
  min w.size ((w.values.length - w.stale now : Nat) + n)

/-- The window gets smaller if it is adapted with `held` values in it. -/
structure Shrinks (w : SlidingWindow F) (held : Int) (later : Int) : Prop where
  adaptive : w.adaptiveSize = true
  due : minute ≤ timeSub later w.lastResize
  sparse : 10 * held < 3 * w.size
  above : w.minSize < w.size
  smaller : toInt ((w.size : F) * w.shrinkFactor) < w.size

variable {w : SlidingWindow F}

omit [LinearOrder F] in
theorem shrunkSize_lt_iff : w.shrunkSize toInt < w.size ↔
    w.minSize < w.size ∧ toInt ((w.size : F) * w.shrinkFactor) < w.size := by
  simp only [shrunkSize]
  split <;> omega

variable [IsStrictOrderedRing F]

theorem fillRatio_lt_iff (pos : 1 ≤ w.size) :
    w.fillRatio < ratio 3 10 ↔ 10 * (w.values.length : Int) < 3 * w.size := by
  have size : (0 : F) < (w.size : F) := by exact_mod_cast pos
  have ten : (0 : F) < ((10 : Nat) : F) := by norm_num
  simp only [fillRatio, ratio, div_lt_div_iff₀ size ten]
  constructor
  · intro less
    have less : (w.values.length : Int) * 10 < 3 * w.size := by exact_mod_cast less
    omega
  · intro less
    have less : (w.values.length : Int) * 10 < 3 * w.size := by omega
    exact_mod_cast less

theorem not_full_of_sparse (sparse : w.fillRatio < ratio 3 10) :
    ¬ (ratio 8 10 < w.fillRatio ∧ w.size < w.maxSize) := by
  intro full
  have between : (ratio 8 10 : F) < ratio 3 10 := full.1.trans sparse
  norm_num [ratio] at between

variable {later : Int}

theorem Cuts.shrinks (pos : 1 ≤ w.size) (cuts : w.Cuts toInt later) :
    w.Shrinks toInt w.values.length later where
  adaptive := cuts.adaptive
  due := not_lt.mp cuts.due
  sparse := (fillRatio_lt_iff pos).mp cuts.sparse.1
  above := cuts.sparse.2
  smaller := ((shrunkSize_lt_iff toInt).mp cuts.smaller).2

theorem adapt_spares (sound : w.Sound) (spared : ¬ w.Shrinks toInt w.values.length later) :
    ∃ w', adapt toInt later w = .ok () w' ∧ w'.values = w.values ∧ w'.Sound := by
  have kept := adapt_keeps toInt sound fun cuts => spared (cuts.shrinks toInt sound.size_pos)
  have returns : ∃ w', adapt toInt later w = .ok () w' ∧ w'.values = w.values := by
    unfold adapt adjustSize
    simp only [get_bind]
    split
    · rename_i adaptive
      simp only [get_bind]
      split
      · exact ⟨w, rfl, rfl⟩
      · rename_i due
        split
        · split
          · exact ⟨_, rfl, rfl⟩
          · exact ⟨w, rfl, rfl⟩
        · split
          · rename_i sparse
            have larger : ¬ w.shrunkSize toInt < w.size := fun smaller =>
              spared ⟨adaptive, not_lt.mp due, (fillRatio_lt_iff sound.size_pos).mp sparse.1, sparse.2,
                ((shrunkSize_lt_iff toInt).mp smaller).2⟩
            simp only [if_neg larger]
            exact ⟨w, rfl, rfl⟩
          · exact ⟨w, rfl, rfl⟩
    · exact ⟨w, rfl, rfl⟩
  obtain ⟨w', ok, values⟩ := returns
  simp only [ok, after] at kept
  exact ⟨w', ok, values, kept⟩

theorem adapt_loses (sound : w.Sound) (shrinks : w.Shrinks toInt w.values.length later) :
    ¬ (returned (adapt toInt later w) = true ∧
      w.values.rtake (after (adapt toInt later w)).size.toNat <:+ (after (adapt toInt later w)).values) := by
  have sparse := (fillRatio_lt_iff sound.size_pos).mpr shrinks.sparse
  have notFull := not_full_of_sparse sparse
  have smaller := (shrunkSize_lt_iff toInt).mpr ⟨shrinks.above, shrinks.smaller⟩
  by_cases enough : w.removeCount toInt ≤ w.values.length
  · have cuts : w.Cuts toInt later :=
      ⟨shrinks.adaptive, not_lt.mpr shrinks.due, notFull, ⟨sparse, shrinks.above⟩, smaller, enough⟩
    simp only [adapt_cuts toInt sound cuts, after]
    intro kept
    have short := kept.2.length_le
    have few := shrinks.sparse
    simp only [List.rtake, List.length_drop] at short
    unfold removeCount at short enough
    omega
  · have panics : adapt toInt later w = .error .sliceBoundsOutOfRange w := by
      unfold adapt adjustSize
      simp only [get_bind, shrinks.adaptive, if_true, if_neg (not_lt.mpr shrinks.due), if_neg notFull,
        if_pos (And.intro sparse shrinks.above), if_pos smaller]
      simp only [bind_apply, cutFront_panics (not_le.mp enough)]
    simp [panics, returned]

end Shrinking

end SlidingWindow

/-- The calls that fill a window or change how it adapts. -/
inductive Feed (F : Type) where
  | add (value : F) (now later : Int)
  | addBatch (values : List F) (now later : Int)
  | setAdaptive (adaptive : Bool) (minSize maxSize : Int) (growthFactor shrinkFactor : F)

/-- A window, whether the last call returned, and what was in the window just before that call
    adapted the size. -/
structure Feeding (F : Type) where
  window : SlidingWindow F
  returned : Bool
  offered : List F

section Feeds

variable {F : Type} [Field F] [LinearOrder F] (toInt : F → Int)

open SlidingWindow

def Feeding.start (size maxAge now : Int) : Feeding F :=
  ⟨newAdaptiveSlidingWindow size maxAge true now, true, []⟩

/-- The state after a call that ended with `result`. -/
def Feeding.ended (result : EStateM.Result RuntimeError (SlidingWindow F) Unit) (offered : List F) :
    Feeding F :=
  ⟨after result, Methods.returned result, offered⟩

def Feeding.step (r : Feeding F) : Feed F → Option (Feeding F)
  | .add value now later =>
    some (.ended (add toInt value now later r.window) (after (enqueue [value] now r.window)).values)
  | .addBatch values now later =>
    some (.ended (addBatch toInt values now later r.window) (after (enqueue values now r.window)).values)
  | .setAdaptive adaptive minSize maxSize growthFactor shrinkFactor =>
    some (.ended (setAdaptive adaptive minSize maxSize growthFactor shrinkFactor r.window)
      r.window.values)

/-- The last call returned and of the values that it found it left the newest ones, as many as the
    window now has room for. -/
def Feeding.Intact (r : Feeding F) : Prop :=
  r.returned = true ∧ r.offered.rtake r.window.size.toNat <:+ r.window.values

def Feeding.Spares (r : Feeding F) : Feed F → Prop
  | .add _ now later => ¬ r.window.Shrinks toInt (r.window.held 1 now) later
  | .addBatch values now later => ¬ r.window.Shrinks toInt (r.window.held values.length now) later
  | .setAdaptive .. => True

omit [LinearOrder F] in
theorem SlidingWindow.enqueue_shrinks_iff {w : SlidingWindow F} (sound : w.Sound) (values : List F)
    (now later : Int) :
    (after (enqueue values now w)).Shrinks toInt (after (enqueue values now w)).values.length later ↔
      w.Shrinks toInt (w.held values.length now) later := by
  have clean := sound.dropFront (w.stale now)
  have count := length_foldl_pushed values now
    (w := (w.counted values.length).dropFront (w.stale now)) clean.fits clean.size_pos
  obtain ⟨values', timestamps', sum', sumSquared', frame⟩ :=
    foldl_pushed_frame values now ((w.counted values.length).dropFront (w.stale now))
  simp only [enqueue_eq values now sound.paired sound.size_pos, after, count]
  have number : (w.held values.length now) =
      min w.size (((w.counted values.length).dropFront (w.stale now)).values.length + values.length) := by
    simp [held, SlidingWindow.dropFront, counted]
  simp only [number, frame]
  constructor
  · intro shrinks
    exact ⟨shrinks.adaptive, shrinks.due, shrinks.sparse, shrinks.above, shrinks.smaller⟩
  · intro shrinks
    exact ⟨shrinks.adaptive, shrinks.due, shrinks.sparse, shrinks.above, shrinks.smaller⟩

variable [IsStrictOrderedRing F]

theorem SlidingWindow.Sound.addBatch_intact_iff {w : SlidingWindow F} (sound : w.Sound)
    (values : List F) (now later : Int) :
    let ended := Feeding.ended (addBatch toInt values now later w) (after (enqueue values now w)).values
    (ended.Intact ↔ ¬ w.Shrinks toInt (w.held values.length now) later) ∧
      (ended.Intact → ended.window.Sound) := by
  obtain ⟨_, w₁, enqueued, sound₁⟩ := enqueue_safe values now w sound
  have same := enqueue_shrinks_iff toInt sound values now later
  simp only [Feeding.ended, Feeding.Intact, addBatch_eq toInt, bind_ok enqueued, enqueued, ← same]
  by_cases shrinks : w₁.Shrinks toInt w₁.values.length later
  · have lost := adapt_loses toInt sound₁ shrinks
    exact ⟨iff_of_false lost (not_not_intro shrinks), fun kept => absurd kept lost⟩
  · obtain ⟨w', ok, kept, sound'⟩ := adapt_spares toInt sound₁ shrinks
    simp only [ok, after, Methods.returned, kept, true_and]
    exact ⟨iff_of_true (List.drop_suffix _ _) shrinks, fun _ => sound'⟩

/-- For every adaptive window of positive size and every sequence of calls that fill it or change
    how it adapts, at any times, all calls return and leave the newest values that there is room
    for exactly when no call makes the window smaller. -/
theorem run_intact_iff {size : Int} (positive : 1 ≤ size) (maxAge now : Int) (feeds : List (Feed F)) :
    Throughout (Feeding.step toInt) Feeding.Intact (.start size maxAge now) feeds ↔
      EachStep (Feeding.step toInt) (Feeding.Spares toInt) (.start size maxAge now) feeds := by
  refine throughout_iff (fun r => r.window.Sound) ?_ ?_ feeds (sound_new positive maxAge true now)
    ⟨rfl, List.drop_suffix _ _⟩
  · intro r feed r' sound _ taken intact
    cases feed with
    | add value now later =>
      cases taken
      simp only [add_eq_addBatch toInt] at intact ⊢
      exact (sound.addBatch_intact_iff toInt [value] now later).2 intact
    | addBatch values now later =>
      cases taken
      exact (sound.addBatch_intact_iff toInt values now later).2 intact
    | setAdaptive =>
      cases taken
      exact (setAdaptive_safe _ _ _ _ _).keeps _ sound
  · intro r feed r' sound _ taken
    cases feed with
    | add value now later =>
      cases taken
      simp only [add_eq_addBatch toInt]
      exact (sound.addBatch_intact_iff toInt [value] now later).1
    | addBatch values now later =>
      cases taken
      exact (sound.addBatch_intact_iff toInt values now later).1
    | setAdaptive =>
      cases taken
      exact iff_of_true ⟨rfl, List.drop_suffix _ _⟩ trivial

end Feeds

/-- A batch at once, and a value after a minute that finds the window too full to shrink. -/
theorem run_intact_iff_filling :
    Throughout (Feeding.step Int.floor) Feeding.Intact (.start 5 0 0 : Feeding ℚ)
      [.addBatch [1, 2, 3, 4] 0 0, .add 5 SlidingWindow.minute SlidingWindow.minute] := by
  refine (run_intact_iff Int.floor (by decide) 0 0 _).mpr fun r taken => ?_
  cases taken
  refine ⟨fun shrinks => absurd shrinks.due (by decide), fun r taken => ⟨fun shrinks => ?_, trivial⟩⟩
  cases taken
  exact absurd shrinks.sparse (by decide +kernel)

/-- A minute after its creation a window of size 20 with five values shrinks to 16 and keeps only
    the newest value, and a window of size 100 with one value panics. -/
theorem shrinking_unsafe :
    (∃ r, (Feeding.start 20 0 0 : Feeding ℚ).step Int.floor
        (.addBatch [1, 2, 3, 4, 5] SlidingWindow.minute SlidingWindow.minute) = some r ∧
      r.returned = true ∧ r.offered = [1, 2, 3, 4, 5] ∧ r.window.size = 16 ∧ r.window.values = [5]) ∧
    (∃ r, (Feeding.start 100 0 0 : Feeding ℚ).step Int.floor
        (.add 1 SlidingWindow.minute SlidingWindow.minute) = some r ∧ r.returned = false) ∧
    ¬ Throughout (Feeding.step Int.floor) Feeding.Intact (.start 20 0 0 : Feeding ℚ)
        [.addBatch [1, 2, 3, 4, 5] SlidingWindow.minute SlidingWindow.minute] ∧
    ¬ Throughout (Feeding.step Int.floor) Feeding.Intact (.start 100 0 0 : Feeding ℚ)
        [.add 1 SlidingWindow.minute SlidingWindow.minute] := by
  refine ⟨⟨_, rfl, by decide +kernel⟩, ⟨_, rfl, by decide +kernel⟩, not_throughout rfl fun intact => ?_,
    not_throughout rfl fun intact => ?_⟩
  · exact absurd intact.2.length_le (by decide +kernel)
  · exact absurd intact.1 (by decide +kernel)

end Monitor.Window
