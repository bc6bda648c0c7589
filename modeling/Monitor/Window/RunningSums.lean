import Monitor.Analysis.Spread
import Monitor.Lib.Runs
import Monitor.Window.SlidingWindow

/-! # Running sums of a sliding window

The sums of a window are those of its contents as long as values leave it with their share of
the sums: by expiry and eviction. `Reset` forgets the sum of squares and a shrinking window
both sums, so they go wrong unless only zeros leave that way.
-/

namespace Monitor.Window

open Methods Runs

namespace SlidingWindow

section Removing

variable {F : Type} [Field F]

def squares (values : List F) : F := (values.map fun v => v * v).sum

@[simp] theorem squares_nil : squares ([] : List F) = 0 := by
  simp [squares]

@[simp] theorem squares_cons (v : F) (values : List F) :
    squares (v :: values) = v * v + squares values := by
  simp [squares]

theorem squares_append (values more : List F) :
    squares (values ++ more) = squares values + squares more := by
  simp [squares]

theorem squares_take_drop (values : List F) (n : Nat) :
    squares (values.take n) + squares (values.drop n) = squares values := by
  simp only [← squares_append, List.take_append_drop]

/-- The window without its first `n` values, with both sums adjusted. -/
def dropFront (w : SlidingWindow F) (n : Nat) : SlidingWindow F :=
  { w with
    values := w.values.drop n
    timestamps := w.timestamps.drop n
    sum := w.sum - (w.values.take n).sum
    sumSquared := w.sumSquared - squares (w.values.take n) }

@[simp] theorem dropFront_zero (w : SlidingWindow F) : w.dropFront 0 = w := by
  simp [dropFront]

variable {w : SlidingWindow F}

omit [Field F] in
theorem cutFront_eq (paired : w.values.length = w.timestamps.length) {i : Nat}
    (lt : i ≤ w.values.length) :
    cutFront i w = .ok () { w with values := w.values.drop i, timestamps := w.timestamps.drop i } := by
  have first : ¬ w.values.length < i := by omega
  have second : ¬ w.timestamps.length < i := by omega
  simp [cutFront, first, second]

omit [Field F] in
theorem cutFront_panics {i : Nat} (outside : w.values.length < i) :
    cutFront i w = .error .sliceBoundsOutOfRange w := by
  simp [cutFront, outside]

def stale (w : SlidingWindow F) (now : Int) : Nat :=
  if w.maxAge ≤ 0 then 0
  else (w.timestamps.takeWhile fun timestamp => timestamp < now - w.maxAge).length

theorem expireLoop_eq (cutoff : Int) : ∀ (timestamps : List Int) (values : List F) (i : Nat)
    (w : SlidingWindow F), values.length = timestamps.length → expireLoop cutoff timestamps values i w =
      let n := (timestamps.takeWhile fun timestamp => timestamp < cutoff).length
      .ok (i + n) { w with
        sum := w.sum - (values.take n).sum
        sumSquared := w.sumSquared - squares (values.take n) } := by
  intro timestamps
  induction timestamps with
  | nil =>
    intro values i w _
    simp [expireLoop, pure, EStateM.pure]
  | cons timestamp timestamps ih =>
    intro values i w paired
    cases values with
    | nil => simp at paired
    | cons value values =>
      unfold expireLoop
      by_cases expired : timestamp < cutoff
      · simp only [if_pos expired, modify_bind, ih values (i + 1) _ (by simpa using paired)]
        simp only [List.takeWhile_cons, decide_eq_true expired, if_true, List.length_cons,
          List.take_succ_cons, List.sum_cons, squares_cons, subtract, sub_sub]
        congr 1
        omega
      · simp [expired]

theorem cleanExpired_eq (paired : w.values.length = w.timestamps.length)
    (now : Int) : cleanExpired now w = .ok () (w.dropFront (w.stale now)) := by
  unfold cleanExpired stale
  simp only [get_bind]
  by_cases ageless : w.maxAge ≤ 0
  · simp [ageless]
  · by_cases empty : w.values.length = 0
    · have none : w.timestamps = [] := List.length_eq_zero_iff.mp (by omega)
      simp [ageless, empty, none]
    · have counted := expireLoop_eq (now - w.maxAge) w.timestamps w.values 0 w paired
      simp only [ageless, empty, or_self, if_false, bind_ok counted, Nat.zero_add]
      have lt : (w.timestamps.takeWhile fun timestamp => timestamp < now - w.maxAge).length ≤
          w.values.length :=
        (List.takeWhile_prefix _).length_le.trans paired.ge
      generalize (w.timestamps.takeWhile fun timestamp => timestamp < now - w.maxAge).length = expired
        at lt ⊢
      split
      · refine cutFront_eq ?_ ?_
        · exact paired
        · exact lt
      · have none : expired = 0 := by omega
        simp [none]

theorem evict_eq (paired : w.values.length = w.timestamps.length)
    (ne : 0 < w.values.length) : evict w = .ok () (w.dropFront 1) := by
  unfold evict
  simp only [get_bind]
  cases some : w.values with
  | nil => simp [some] at ne
  | cons oldest rest =>
    refine (cutFront_eq ?_ ?_).trans ?_
    · exact paired
    · exact ne
    · simp [dropFront, subtract, some]

/-- The window with a value added, and without its oldest one if it was full. -/
def pushed (now : Int) (w : SlidingWindow F) (value : F) : SlidingWindow F :=
  (w.dropFront (if w.size ≤ (w.values.length : Int) then 1 else 0)).append now value

theorem push_eq (paired : w.values.length = w.timestamps.length)
    (pos : 1 ≤ w.size) (now : Int) (value : F) : push now value w = .ok () (w.pushed now value) := by
  unfold push pushed
  simp only [get_bind]
  split
  · have evicted := evict_eq paired (by omega)
    simp only [bind_ok evicted, modify_apply]
  · simp only [modify_apply, dropFront_zero]

end Removing

section Sound

variable {F : Type} [Field F]

structure Consistent (w : SlidingWindow F) : Prop where
  paired : w.values.length = w.timestamps.length
  fits : (w.values.length : Int) ≤ w.size
  sum_eq : w.sum = w.values.sum
  squared_eq : w.sumSquared = squares w.values

structure Sound (w : SlidingWindow F) : Prop extends Consistent w where
  size_pos : 1 ≤ w.size
  minSize_pos : 1 ≤ w.minSize

theorem sound_new {size : Int} (pos : 1 ≤ size) (maxAge : Int) (adaptive : Bool) (now : Int) :
    (newAdaptiveSlidingWindow size maxAge adaptive now : SlidingWindow F).Sound where
  paired := rfl
  fits := by
    simp only [newAdaptiveSlidingWindow, List.length_nil]
    omega
  sum_eq := rfl
  squared_eq := rfl
  size_pos := pos
  minSize_pos := by
    simp only [newAdaptiveSlidingWindow]
    omega

variable {w : SlidingWindow F}

theorem Consistent.dropFront (consistent : w.Consistent) (n : Nat) : (w.dropFront n).Consistent where
  paired := by simp [SlidingWindow.dropFront, consistent.paired]
  fits := by
    have := consistent.fits
    simp only [SlidingWindow.dropFront, List.length_drop]
    omega
  sum_eq := by
    have split := List.sum_take_add_sum_drop w.values n
    simp only [SlidingWindow.dropFront, consistent.sum_eq, ← split]
    ring
  squared_eq := by
    have split := squares_take_drop w.values n
    simp only [SlidingWindow.dropFront, consistent.squared_eq, ← split]
    ring

theorem Sound.dropFront (sound : w.Sound) (n : Nat) : (w.dropFront n).Sound :=
  ⟨sound.toConsistent.dropFront n, sound.size_pos, sound.minSize_pos⟩

theorem Sound.append (sound : w.Sound) (room : (w.values.length : Int) < w.size) (now : Int) (value : F) :
    (w.append now value).Sound where
  paired := by simp [SlidingWindow.append, sound.paired]
  fits := by
    simp only [SlidingWindow.append, List.length_append, List.length_singleton]
    omega
  sum_eq := by simp [SlidingWindow.append, sound.sum_eq]
  squared_eq := by simp [SlidingWindow.append, sound.squared_eq, squares_append]
  size_pos := sound.size_pos
  minSize_pos := sound.minSize_pos

theorem cleanExpired_safe (now : Int) : Safe Sound (cleanExpired now : Method F Unit) :=
  fun _ sound => ⟨(), _, cleanExpired_eq sound.paired now, sound.dropFront _⟩

theorem Sound.pushed (sound : w.Sound) (now : Int) (value : F) : (w.pushed now value).Sound := by
  have fits := sound.fits
  have pos := sound.size_pos
  refine (sound.dropFront _).append ?_ now value
  simp only [SlidingWindow.dropFront, List.length_drop]
  split <;> omega

theorem push_safe (now : Int) (value : F) : Safe Sound (push now value) :=
  fun _ sound => ⟨(), _, push_eq sound.paired sound.size_pos now value, sound.pushed now value⟩

/-- The part of `AddBatch` before the size is adapted. -/
def enqueue (values : List F) (now : Int) : Method F Unit := do
  countOperations values.length
  cleanExpired now
  values.forM (push now)

/-- The window with `n` more operations counted. -/
def counted (n : Nat) (w : SlidingWindow F) : SlidingWindow F :=
  { w with totalOperations := GoText.wrap64 (w.totalOperations + n) }

theorem paired_pushed (paired : w.values.length = w.timestamps.length) (now : Int) (value : F) :
    (w.pushed now value).values.length = (w.pushed now value).timestamps.length := by
  simp [pushed, dropFront, append, paired]

theorem forM_push_eq (values : List F) (now : Int) {w : SlidingWindow F}
    (paired : w.values.length = w.timestamps.length) (pos : 1 ≤ w.size) :
    values.forM (push now) w = .ok () (values.foldl (pushed now) w) := by
  induction values generalizing w with
  | nil => rfl
  | cons value values ih =>
    exact (bind_ok (push_eq paired pos now value) _).trans
      (ih (paired_pushed paired now value) pos)

theorem foldl_pushed_frame (values : List F) (now : Int) (w : SlidingWindow F) :
    ∃ values' timestamps' sum' sumSquared', values.foldl (pushed now) w = { w with
      values := values', timestamps := timestamps', sum := sum', sumSquared := sumSquared' } := by
  induction values generalizing w with
  | nil => exact ⟨_, _, _, _, rfl⟩
  | cons value values ih =>
    obtain ⟨values', timestamps', sum', sumSquared', equal⟩ := ih (w.pushed now value)
    exact ⟨values', timestamps', sum', sumSquared', equal⟩

theorem enqueue_eq (values : List F) (now : Int) (paired : w.values.length = w.timestamps.length)
    (pos : 1 ≤ w.size) : enqueue values now w = .ok () (values.foldl (pushed now)
        ((w.counted values.length).dropFront (w.stale now))) := by
  have cleaned : cleanExpired now (w.counted values.length) =
      .ok () ((w.counted values.length).dropFront (w.stale now)) :=
    cleanExpired_eq (w := w.counted values.length) paired now
  refine (bind_ok cleaned _).trans (forM_push_eq values now ?_ pos)
  simp [dropFront, counted, paired]

theorem enqueue_safe (values : List F) (now : Int) : Safe Sound (enqueue values now) :=
  (Safe.modifies fun _ sound => ⟨⟨sound.paired, sound.fits, sound.sum_eq, sound.squared_eq⟩,
    sound.size_pos, sound.minSize_pos⟩).bind fun _ =>
      (cleanExpired_safe now).bind fun _ => Safe.forM (push_safe now) values

end Sound

section Shrinking

variable {F : Type} [Field F] [LinearOrder F] [IsStrictOrderedRing F]

theorem squares_nonneg (values : List F) : 0 ≤ squares values := by
  induction values with
  | nil => exact le_rfl
  | cons v values ih =>
    exact add_nonneg (mul_self_nonneg v) ih

theorem squares_eq_zero {values : List F} : squares values = 0 ↔ ∀ v ∈ values, v = 0 := by
  induction values with
  | nil => simp
  | cons v values ih =>
    simp only [squares_cons, add_eq_zero_iff_of_nonneg (mul_self_nonneg v) (squares_nonneg values),
      mul_self_eq_zero, ih, List.forall_mem_cons]

variable {w : SlidingWindow F}

theorem Sound.cut_iff (sound : w.Sound) {n : Nat} {size : Int}
    (fits : w.size - n ≤ size) (lt : n ≤ w.values.length) (now : Int) : Consistent { w with
      values := w.values.drop n, timestamps := w.timestamps.drop n, size := size, lastResize := now } ↔
      ∀ v ∈ w.values.take n, v = 0 := by
  have squared := squares_take_drop w.values n
  constructor
  · intro cut
    have same : squares w.values = squares (w.values.drop n) := sound.squared_eq.symm.trans cut.squared_eq
    exact squares_eq_zero.mp (by simpa only [same, add_eq_right] using squared)
  · intro zeros
    have none := squares_eq_zero.mpr zeros
    have nothing : (w.values.take n).sum = 0 := List.sum_eq_zero zeros
    have total := List.sum_take_add_sum_drop w.values n
    constructor
    · simp [sound.paired]
    · have := sound.fits
      simp only [List.length_drop]
      omega
    · simpa only [nothing, zero_add, ← sound.sum_eq] using total.symm
    · simpa only [none, zero_add, ← sound.squared_eq] using squared.symm

variable (toInt : F → Int)

/-- The adaptation shrinks the window and there are enough values to cut off. -/
structure Cuts (w : SlidingWindow F) (later : Int) : Prop where
  adaptive : w.adaptiveSize = true
  due : ¬ Analysis.timeSub later w.lastResize < minute
  notFull : ¬ (ratio 8 10 < w.fillRatio ∧ w.size < w.maxSize)
  sparse : w.fillRatio < ratio 3 10 ∧ w.minSize < w.size
  smaller : w.shrunkSize toInt < w.size
  enough : w.removeCount toInt ≤ w.values.length

omit [IsStrictOrderedRing F] in
theorem adapt_cuts (sound : w.Sound) {later : Int} (cuts : w.Cuts toInt later) :
    adapt toInt later w = .ok () { w with
      values := w.values.drop (w.removeCount toInt)
      timestamps := w.timestamps.drop (w.removeCount toInt)
      size := w.shrunkSize toInt
      lastResize := later } := by
  have cut := cutFront_eq sound.paired cuts.enough
  unfold adapt adjustSize
  simp only [get_bind, cuts.adaptive, if_true, if_neg cuts.due, if_neg cuts.notFull, if_pos cuts.sparse,
    if_pos cuts.smaller, bind_ok cut, modify_apply]

omit [IsStrictOrderedRing F] in
theorem adapt_keeps (sound : w.Sound) {later : Int}
    (whole : ¬ w.Cuts toInt later) : (after (adapt toInt later w)).Sound := by
  unfold adapt adjustSize
  simp only [get_bind]
  split
  · rename_i adaptive
    simp only [get_bind]
    split
    · exact sound
    · rename_i due
      split
      · split
        · rename_i larger
          exact ⟨⟨sound.paired, sound.fits.trans larger.le, sound.sum_eq, sound.squared_eq⟩,
            sound.size_pos.trans larger.le, sound.minSize_pos⟩
        · exact sound
      · rename_i notFull
        split
        · rename_i sparse
          split
          · rename_i smaller
            have short : w.values.length < w.removeCount toInt := by
              by_contra enough
              exact whole ⟨adaptive, due, notFull, sparse, smaller, not_lt.mp enough⟩
            simp only [bind_apply, cutFront_panics short, after]
            exact sound
          · exact sound
        · exact sound
  · exact sound

end Shrinking

section Reports

variable {F : Type} [Field F]

/-- The readings are those of the contents that they leave. -/
structure Reports [LinearOrder F] (sqrt : F → F) (w : SlidingWindow F) : Prop where
  average : ∀ now, ∃ w', average now w = .ok (w'.values.sum / (w'.values.length : F)) w'
  variance : ∀ now, ∃ w', variance sqrt now w = .ok (Analysis.variance w'.values) w'

variable {w : SlidingWindow F}

theorem Consistent.reading_eq (consistent : w.Consistent) {A : Type} (look : SlidingWindow F → A)
    (now : Int) : ∃ w', w'.Consistent ∧ reading look now w = .ok (look w') w' := by
  refine ⟨_, consistent.dropFront (w.stale now), ?_⟩
  unfold reading
  simp only [bind_ok (cleanExpired_eq consistent.paired now), get_bind, pure_apply]

theorem Consistent.average_eq (consistent : w.Consistent) (now : Int) :
    ∃ w', average now w = .ok (w'.values.sum / (w'.values.length : F)) w' := by
  obtain ⟨w', consistent', read⟩ := consistent.reading_eq _ now
  refine ⟨w', read.trans ?_⟩
  split
  · rename_i none
    simp [none]
  · simp only [consistent'.sum_eq]

theorem variance_short {values : List F} (short : values.length < 2) : Analysis.variance values = 0 := by
  match values, short with
  | [], _ => simp [Analysis.variance]
  | [v], _ => simp [Analysis.variance]

variable [LinearOrder F] [IsStrictOrderedRing F]

theorem Consistent.variance_eq (consistent : w.Consistent) {sqrt : F → F}
    (sqrt_mul_self : ∀ x, 0 ≤ x → sqrt x * sqrt x = x) (now : Int) :
    ∃ w', variance sqrt now w = .ok (Analysis.variance w'.values) w' := by
  obtain ⟨w', consistent', read⟩ := consistent.reading_eq _ now
  refine ⟨w', (bind_ok read _).trans ?_⟩
  simp only [pure_apply]
  split
  · rename_i short
    simp [variance_short short]
  · rename_i long
    have ne : w'.values ≠ [] := by
      intro none
      simp [none] at long
    -- what the code computes from the two sums
    have computed : w'.sumSquared / (w'.values.length : F) -
        w'.sum / (w'.values.length : F) * (w'.sum / (w'.values.length : F)) =
          Analysis.variance w'.values := by
      simp only [Analysis.variance_eq ne, consistent'.sum_eq, consistent'.squared_eq, squares]
      ring
    have nonneg := Analysis.variance_nonneg w'.values
    simp only [computed, if_neg (not_lt.mpr nonneg), sqrt_mul_self _ nonneg]

theorem Consistent.reports (consistent : w.Consistent) {sqrt : F → F}
    (sqrt_mul_self : ∀ x, 0 ≤ x → sqrt x * sqrt x = x) : w.Reports sqrt :=
  ⟨consistent.average_eq, consistent.variance_eq sqrt_mul_self⟩

end Reports

end SlidingWindow

inductive Call (F : Type) where
  | add (value : F) (now later : Int)
  | addBatch (values : List F) (now later : Int)
  | reset
  | setAdaptive (adaptive : Bool) (minSize maxSize : Int) (growthFactor shrinkFactor : F)
  | average (now : Int)
  | min (now : Int)
  | max (now : Int)
  | count (now : Int)
  | valuesAt (now : Int)
  | standardDeviation (now : Int)
  | variance (now : Int)
  | percentile (p : F) (now : Int)
  | rate (now : Int)
  | getStats (clock : Nat → Int)
  | getWindowInfo

section Calls

variable {F : Type} [Field F] [LinearOrder F] (sqrt : F → F) (toInt : F → Int)

open SlidingWindow

def perform : Call F → Method F Unit
  | .add value now later => add toInt value now later
  | .addBatch values now later => addBatch toInt values now later
  | .reset => reset
  | .setAdaptive adaptive minSize maxSize growthFactor shrinkFactor =>
    setAdaptive adaptive minSize maxSize growthFactor shrinkFactor
  | .average now => do let _ ← average now
  | .min now => do let _ ← SlidingWindow.min now
  | .max now => do let _ ← SlidingWindow.max now
  | .count now => do let _ ← count now
  | .valuesAt now => do let _ ← valuesAt now
  | .standardDeviation now => do let _ ← standardDeviation sqrt now
  | .variance now => do let _ ← variance sqrt now
  | .percentile p now => do let _ ← percentile toInt p now
  | .rate now => do let _ ← rate now
  | .getStats clock => do let _ ← getStats sqrt toInt clock
  | .getWindowInfo => pure ()

/-- A window and whether the last call returned. -/
structure WindowRun (F : Type) where
  window : SlidingWindow F
  returned : Bool

def WindowRun.start (size maxAge : Int) (adaptive : Bool) (now : Int) : WindowRun F :=
  ⟨newAdaptiveSlidingWindow size maxAge adaptive now, true⟩

def WindowRun.step (r : WindowRun F) (call : Call F) : Option (WindowRun F) :=
  let result := perform sqrt toInt call r.window
  some ⟨after result, Methods.returned result⟩

def WindowRun.Truthful (r : WindowRun F) : Prop :=
  r.returned = true → r.window.Consistent ∧ r.window.Reports sqrt

/-- If the window is cut when it adapts, only zeros are cut off. -/
def SlidingWindow.ZerosCut (w : SlidingWindow F) (later : Int) : Prop :=
  w.Cuts toInt later → ∀ v ∈ w.values.take (w.removeCount toInt), v = 0

/-- Only zeros leave the window without their share of the sums. -/
def WindowRun.Lossless (r : WindowRun F) : Call F → Prop
  | .add value now later => (after (enqueue [value] now r.window)).ZerosCut toInt later
  | .addBatch values now later => (after (enqueue values now r.window)).ZerosCut toInt later
  | .reset => ∀ v ∈ r.window.values, v = 0
  | _ => True

namespace SlidingWindow

theorem add_eq_addBatch (value : F) (now later : Int) :
    add toInt value now later = addBatch toInt [value] now later := by
  simp [add, addBatch]

theorem addBatch_eq (values : List F) (now later : Int) :
    addBatch toInt values now later = enqueue values now >>= fun _ => adapt toInt later := by
  simp [addBatch, enqueue, bind_assoc]

omit [LinearOrder F] in
theorem minSize_le_shrunkSize (w : SlidingWindow F) : w.minSize ≤ w.shrunkSize toInt := by
  unfold shrunkSize
  simp only
  split <;> omega

omit [Field F] [LinearOrder F] in
theorem lastValue_keeps (P : SlidingWindow F → Prop) : Keeps P (lastValue : Method F F) := by
  intro w holds
  unfold lastValue
  simp only [get_bind]
  cases w.values.getLast? with
  | none => exact holds
  | some value => exact holds

section Figures

variable {P : SlidingWindow F → Prop} {clock : Nat → Int}

omit [LinearOrder F] in
theorem reading_keeps {A : Type} (look : SlidingWindow F → A) {now : Int}
    (clean : Keeps P (cleanExpired now : Method F Unit)) : Keeps P (reading look now) :=
  clean.bind fun _ => Safe.get.keeps.bind fun _ => (Safe.pure _).keeps

theorem variance_keeps {now : Int} (clean : Keeps P (cleanExpired now : Method F Unit)) :
    Keeps P (variance sqrt now) :=
  (reading_keeps _ clean).bind fun _ => (Safe.pure _).keeps

theorem currentStats_keeps (clean : ∀ i < 10, Keeps P (cleanExpired (clock i) : Method F Unit))
    (w : SlidingWindow F) : Keeps P (currentStats sqrt toInt clock w) := by
  have read {A : Type} (look : SlidingWindow F → A) (i : Nat) (small : i < 10) :
      Keeps P (reading look (clock i)) := reading_keeps look (clean i small)
  refine (read _ 1 (by omega)).bind fun _ => (read _ 2 (by omega)).bind fun _ => ?_
  refine (read _ 3 (by omega)).bind fun _ => (variance_keeps sqrt (clean 4 (by omega))).bind fun _ => ?_
  refine (read _ 5 (by omega)).bind fun _ => (read _ 6 (by omega)).bind fun _ => ?_
  refine (read _ 7 (by omega)).bind fun _ => (read _ 8 (by omega)).bind fun _ => ?_
  exact (read _ 9 (by omega)).bind fun _ => (lastValue_keeps _).bind fun _ => (Safe.pure _).keeps

theorem getStats_keeps (clean : ∀ i < 10, Keeps P (cleanExpired (clock i) : Method F Unit)) :
    Keeps P (getStats sqrt toInt clock) := by
  refine (clean 0 (by omega)).bind fun _ => Safe.get.keeps.bind fun w => Keeps.bind ?_ fun _ =>
    Safe.get.keeps.bind fun _ => (Safe.pure _).keeps
  split
  · exact currentStats_keeps sqrt toInt clean w
  · exact (Safe.pure _).keeps

end Figures

theorem setAdaptive_safe (adaptive : Bool) (minSize maxSize : Int) (growthFactor shrinkFactor : F) :
    Safe Sound (setAdaptive adaptive minSize maxSize growthFactor shrinkFactor) := by
  refine Safe.modifies fun w sound => ?_
  refine ⟨⟨sound.paired, sound.fits, sound.sum_eq, sound.squared_eq⟩, sound.size_pos, ?_⟩
  have := sound.minSize_pos
  simp only
  split <;> omega

variable [IsStrictOrderedRing F] {w : SlidingWindow F}

theorem Sound.reset_iff (sound : w.Sound) : (after (reset w)).Consistent ↔ ∀ v ∈ w.values, v = 0 := by
  constructor
  · intro consistent
    exact squares_eq_zero.mp (sound.squared_eq.symm.trans consistent.squared_eq)
  · intro zeros
    have none := sound.squared_eq.trans (squares_eq_zero.mpr zeros)
    have pos := sound.size_pos
    refine ⟨rfl, ?_, rfl, none⟩
    change (0 : Int) ≤ w.size
    omega

omit [IsStrictOrderedRing F] in
theorem Sound.addBatch_cases (sound : w.Sound) (values : List F) (now later : Int) :
    let enqueued := after (enqueue values now w)
    enqueued.Sound ∧
      (enqueued.Cuts toInt later → addBatch toInt values now later w = .ok () { enqueued with
        values := enqueued.values.drop (enqueued.removeCount toInt)
        timestamps := enqueued.timestamps.drop (enqueued.removeCount toInt)
        size := enqueued.shrunkSize toInt
        lastResize := later }) ∧
      (¬ enqueued.Cuts toInt later → (after (addBatch toInt values now later w)).Sound) := by
  obtain ⟨_, w₁, enqueued, sound₁⟩ := enqueue_safe values now w sound
  simp only [addBatch_eq toInt, bind_ok enqueued, enqueued, after]
  exact ⟨sound₁, adapt_cuts toInt sound₁, adapt_keeps toInt sound₁⟩

theorem Sound.addBatch_spec (sound : w.Sound) (values : List F) (now later : Int) :
    let result := addBatch toInt values now later w
    let zeros := (after (enqueue values now w)).ZerosCut toInt later
    ((after result).Consistent → zeros) ∧ (zeros → (after result).Sound) ∧
      (Methods.returned result = false → zeros) := by
  obtain ⟨sound₁, cut, whole⟩ := sound.addBatch_cases toInt values now later
  generalize after (enqueue values now w) = w₁ at sound₁ cut whole ⊢
  by_cases cuts : w₁.Cuts toInt later
  · have fits : w₁.size - (w₁.removeCount toInt : Int) ≤ w₁.shrunkSize toInt := by
      unfold removeCount
      omega
    have iff := sound₁.cut_iff fits cuts.enough later
    have low := minSize_le_shrunkSize toInt w₁
    have pos := sound₁.minSize_pos
    simp only [cut cuts, after, Methods.returned, ZerosCut]
    refine ⟨fun consistent _ => iff.mp consistent, fun zeros => ⟨iff.mpr (zeros cuts), ?_, pos⟩, ?_⟩
    · exact pos.trans low
    · intro panicked
      cases panicked
  · exact ⟨fun _ => (absurd · cuts), fun _ => whole cuts, fun _ => (absurd · cuts)⟩

end SlidingWindow

variable [IsStrictOrderedRing F] {w : SlidingWindow F}

theorem perform_spec (sound : w.Sound) (call : Call F) (last : Bool) :
    let result := perform sqrt toInt call w
    let lossless := WindowRun.Lossless toInt ⟨w, last⟩ call
    ((after result).Consistent → lossless) ∧ (lossless → (after result).Sound) ∧
      (Methods.returned result = false → lossless) := by
  -- the calls that keep every sound window sound
  have kept {m : Method F Unit} (keeps : Keeps Sound m) :
      ((after (m w)).Consistent → True) ∧ (True → (after (m w)).Sound) ∧
        (Methods.returned (m w) = false → True) :=
    ⟨fun _ => trivial, fun _ => keeps w sound, fun _ => trivial⟩
  have read {A : Type} {m : Method F A} (keeps : Keeps Sound m) :=
    kept (keeps.bind fun _ => (Safe.pure ()).keeps)
  cases call with
  | add value now later =>
    simp only [perform, add_eq_addBatch toInt]
    exact sound.addBatch_spec toInt [value] now later
  | addBatch values now later => exact sound.addBatch_spec toInt values now later
  | reset =>
    refine ⟨sound.reset_iff.mp, fun zeros => ⟨sound.reset_iff.mpr zeros, sound.size_pos, ?_⟩, nofun⟩
    exact sound.minSize_pos
  | setAdaptive => exact kept (setAdaptive_safe _ _ _ _ _).keeps
  | average now | min now | max now | count now | valuesAt now | standardDeviation now
  | percentile p now | rate now => exact read (reading_keeps _ (cleanExpired_safe now).keeps)
  | variance now => exact read (variance_keeps sqrt (cleanExpired_safe now).keeps)
  | getStats clock => exact read (getStats_keeps sqrt toInt fun _ _ => (cleanExpired_safe _).keeps)
  | getWindowInfo => exact kept (Safe.pure ()).keeps

/-- For every window of positive size and every sequence of calls, at any times, the sums are those
    of the contents after each call that returns exactly when no value other than zero leaves the
    window by a reset or a shrink. -/
theorem run_truthful_iff (sqrt_mul_self : ∀ x, 0 ≤ x → sqrt x * sqrt x = x) {size : Int}
    (positive : 1 ≤ size) (maxAge : Int) (adaptive : Bool) (now : Int) (calls : List (Call F)) :
    Throughout (WindowRun.step sqrt toInt) (WindowRun.Truthful sqrt)
        (.start size maxAge adaptive now) calls ↔
      EachStep (WindowRun.step sqrt toInt) (WindowRun.Lossless toInt)
        (.start size maxAge adaptive now) calls := by
  have sound : (WindowRun.start size maxAge adaptive now : WindowRun F).window.Sound :=
    sound_new positive maxAge adaptive now
  refine throughout_iff (fun r => r.window.Sound) ?_ ?_ calls sound
    fun _ => ⟨sound.toConsistent, sound.reports sqrt_mul_self⟩
  · intro r call r' sound _ taken truthful
    cases taken
    obtain ⟨needed, enough, panicked⟩ := perform_spec sqrt toInt sound call r.returned
    cases returns : Methods.returned (perform sqrt toInt call r.window) with
    | false => exact enough (panicked returns)
    | true => exact enough (needed (truthful returns).1)
  · intro r call r' sound _ taken
    cases taken
    obtain ⟨needed, enough, panicked⟩ := perform_spec sqrt toInt sound call r.returned
    constructor
    · intro truthful
      cases returns : Methods.returned (perform sqrt toInt call r.window) with
      | false => exact panicked returns
      | true => exact needed (truthful returns).1
    · intro lossless _
      have sound' := enough lossless
      exact ⟨sound'.toConsistent, sound'.reports sqrt_mul_self⟩

end Calls

/-- A window of fixed size never cuts values off. -/
theorem run_truthful_iff_real :
    (∀ x : ℝ, 0 ≤ x → Real.sqrt x * Real.sqrt x = x) ∧
      Throughout (WindowRun.step Real.sqrt Int.floor) (WindowRun.Truthful Real.sqrt)
        (.start 5 0 false 0) [.add 3 0 0, .add 4 1 1, .average 2] := by
  have root : ∀ x : ℝ, 0 ≤ x → Real.sqrt x * Real.sqrt x = x := fun _ => Real.mul_self_sqrt
  refine ⟨root, (run_truthful_iff Real.sqrt Int.floor root (by decide) 0 false 0 _).mpr fun r taken => ?_⟩
  refine ⟨fun cuts => absurd cuts.adaptive Bool.false_ne_true, fun r' taken' => ?_⟩
  cases taken
  refine ⟨fun cuts => absurd cuts.adaptive Bool.false_ne_true, fun _ _ => ⟨trivial, trivial⟩⟩

/-- After `Add(3)` and `Reset` the sum of squares is still 9; and an adaptive window of size 20 that
    shrinks with five values in it keeps one of them and the sums of all five. -/
theorem sums_left_behind :
    (∀ (sqrt : ℚ → ℚ) (toInt : ℚ → Int),
      (∃ r, [Call.add 3 0 0, .reset].foldlM (WindowRun.step sqrt toInt) (.start 5 0 false 0) = some r ∧
        r.returned = true ∧ r.window.values = [] ∧ r.window.sumSquared = 9) ∧
      ¬ Throughout (WindowRun.step sqrt toInt) (WindowRun.Truthful sqrt) (.start 5 0 false 0)
        [.add 3 0 0, .reset]) ∧
    ((WindowRun.start 20 0 true 0 : WindowRun ℚ).step (fun x => x) Int.floor
        (.addBatch [1, 1, 1, 1, 1] SlidingWindow.minute SlidingWindow.minute)).map
      (fun r => (r.returned, r.window.values, r.window.sum, r.window.sumSquared)) =
        some (true, [1], 5, 5) := by
  refine ⟨fun sqrt toInt => ?_, by decide +kernel⟩
  have nine : (0 + 3 * 3 : ℚ) = 9 := by norm_num
  refine ⟨⟨_, rfl, rfl, rfl, nine⟩, not_throughout rfl fun truthful => ?_⟩
  have equal : (0 + 3 * 3 : ℚ) = 0 := (truthful rfl).1.squared_eq
  norm_num at equal

end Monitor.Window
