import Monitor.Lib.GoMap
import Monitor.Window.SlidingWindow

/-! # Cleaning up the windows

`performCleanup` of `algorithm_manager.go` sees a window through the map that `GetWindowInfo` builds,
and asserts the types of what it finds there. The time of the last resize is a text in that map.
-/

namespace Monitor.Window

open GoText GoMap Methods List
open Analysis (timeSub)

/-- A value of an empty interface, of one of the types that occur. -/
inductive Value (F : Type) where
  | int (n : Int)
  | int64 (n : Int)
  | bool (b : Bool)
  | float64 (x : F)
  | string (text : GoString)
  | time (t : Int)

inductive InterfaceConversion where
  | mk

section

variable {F : Type} [Field F] (durationText timeText : Int → GoString)

/-- `GetWindowInfo`, for the formats of durations and times. -/
def SlidingWindow.getWindowInfo (w : SlidingWindow F) : List (String × Value F) :=
  [("size", .int w.size), ("count", .int w.values.length), ("max_age", .string (durationText w.maxAge)),
    ("adaptive", .bool w.adaptiveSize), ("min_size", .int w.minSize), ("max_size", .int w.maxSize),
    ("growth_factor", .float64 w.growthFactor), ("shrink_factor", .float64 w.shrinkFactor),
    ("total_operations", .int64 w.totalOperations), ("last_resize", .string (timeText w.lastResize))]

def hour : Int := 3600 * 10 ^ 9

variable (now : GoString → Int)

/-- The loop's turn for the window of a name; `now` is when `time.Since` reads the clock. -/
def cleanup (name : GoString) : EStateM InterfaceConversion (List (GoString × SlidingWindow F)) Unit := do
  match GoMap.get name (← get) with
  | none => pure ()
  | some window =>
    let info := window.getWindowInfo durationText timeText
    match GoMap.get "count" info with
    | some (.int count) =>
      if count = 0 then
        match GoMap.get "last_resize" info with
        | some (.time last) =>
          if hour < timeSub (now name) last then modify (set name (after (SlidingWindow.reset window)))
        | _ => throw .mk
    | _ => pure ()

/-- The windows are listed in the order in which the loop goes through the map. -/
def performCleanup : EStateM InterfaceConversion (List (GoString × SlidingWindow F)) Unit := do
  (keysOf (← get)).forM (cleanup durationText timeText now)

/-- It returns, and a window that holds values stays as it is. -/
def CleansUp (windows : List (GoString × SlidingWindow F)) : Prop :=
  returned (performCleanup durationText timeText now windows) = true ∧
    ∀ name window, GoMap.get name windows = some window → window.values ≠ [] →
      GoMap.get name (after (performCleanup durationText timeText now windows)) = some window

variable {windows : List (GoString × SlidingWindow F)}

theorem cleanup_eq (name : GoString) : cleanup durationText timeText now name windows =
    if (get name windows).any (·.values.isEmpty) then .error .mk windows else .ok () windows := by
  rw [cleanup, get_bind]
  cases get name windows with
  | none => rfl
  | some window =>
    have count : get "count" (window.getWindowInfo durationText timeText) =
      some (.int window.values.length) := rfl
    have text : get "last_resize" (window.getWindowInfo durationText timeText) =
      some (.string (timeText window.lastResize)) := rfl
    simp only [count, text, Int.natCast_eq_zero, length_eq_zero_iff, Option.any_some, List.isEmpty_iff]
    split <;> rfl

theorem performCleanup_eq : performCleanup durationText timeText now windows =
    if (keysOf windows).any fun name => (get name windows).any (·.values.isEmpty)
      then .error .mk windows else .ok () windows := by
  show (keysOf windows).forM (cleanup durationText timeText now) windows = _
  generalize keysOf windows = names
  induction names with
  | nil => rfl
  | cons name names ih =>
    show (cleanup durationText timeText now name >>= fun _ => names.forM (cleanup durationText timeText now))
      windows = _
    rw [bind_apply, cleanup_eq, any_cons]
    cases (get name windows).any (·.values.isEmpty) with
    | false => exact ih
    | true => rfl

/-- Whatever the windows hold, the cleanup does what it should exactly when none of them is empty. -/
theorem cleansUp_iff (windows : List (GoString × SlidingWindow F)) :
    CleansUp durationText timeText now windows ↔
      ∀ name window, GoMap.get name windows = some window → window.values ≠ [] := by
  have empty_iff : ((keysOf windows).any fun name => (GoMap.get name windows).any (·.values.isEmpty)) ↔
      ∃ name window, GoMap.get name windows = some window ∧ window.values = [] := by
    simp only [any_eq_true, Option.any_eq_true, List.isEmpty_iff]
    constructor
    · rintro ⟨name, _, window, found, empty⟩
      exact ⟨name, window, found, empty⟩
    · rintro ⟨name, window, found, empty⟩
      exact ⟨name, get_isSome_iff.mp (found ▸ rfl), window, found, empty⟩
  rw [CleansUp, performCleanup_eq]
  split
  · rename_i empty
    obtain ⟨name, window, found, empty⟩ := empty_iff.mp empty
    exact iff_of_false (fun cleans => absurd cleans.1 Bool.false_ne_true) fun full => full name window found empty
  · rename_i full
    refine iff_of_true ⟨rfl, fun _ _ found _ => found⟩ fun name window found empty => full ?_
    exact empty_iff.mpr ⟨name, window, found, empty⟩

end

/-- A window that was just created makes the cleanup panic. -/
theorem freshWindow_panics :
    let windows := [("cpu".toUTF8.toList, SlidingWindow.newAdaptiveSlidingWindow 100 0 true 0)]
    returned (performCleanup (F := ℚ) (fun _ => []) (fun _ => []) (fun _ => 0) windows) = false ∧
      ¬ CleansUp (F := ℚ) (fun _ => []) (fun _ => []) (fun _ => 0) windows := by
  intro windows
  have panics : returned (performCleanup (F := ℚ) (fun _ => []) (fun _ => []) (fun _ => 0) windows) = false := by
    rw [performCleanup_eq]
    simp [windows, keysOf, GoMap.get, SlidingWindow.newAdaptiveSlidingWindow, returned]
  exact ⟨panics, fun cleans => absurd (panics ▸ cleans.1) Bool.false_ne_true⟩

end Monitor.Window
