import Mathlib

/-! # Calls that cancel earlier tasks

Some calls add a task, and a call cancels the tasks of the earlier calls it is related to.
A task is named by the call that adds it, and it is alive while it may still be executed.
A system whose steps are all of the kinds of `Step` executes no task after a related
later call has returned (`Inv.respected`).
-/

namespace Monitor.Cancelling

open List Function

inductive Event (ι : Type) where
  | began (call : ι)
  | returned (call : ι)
  | executed (call : ι)
  deriving DecidableEq

/-- A call is settled once it has done all the cancelling it does. -/
inductive Stage where
  | idle
  | pending
  | settled
  | returned
  deriving DecidableEq

structure View (ι : Type) where
  stage : ι → Stage
  alive : ι → Prop
  history : List (Event ι)

theorem sublist_append_cases {α : Type} {history news : List α} (l : List α) (x : α)
    (sub : l ++ [x] <+ history ++ news) :
    l ++ [x] <+ history ∨ x ∈ news ∧ ((∀ y ∈ l, y ∉ news) → l <+ history) := by
  obtain ⟨l₁, l₂, split, old, new⟩ := sublist_append_iff.mp sub
  obtain rfl | ⟨l₃, y, rfl⟩ := eq_nil_or_concat' l₂
  · rw [split, append_nil]
    exact .inl old
  · rw [← append_assoc] at split
    obtain ⟨rfl, last⟩ := append_inj' split rfl
    obtain rfl := singleton_inj.mp last
    refine .inr ⟨new.subset (by simp), fun olds => ?_⟩
    have none : l₃ = [] := eq_nil_iff_forall_not_mem.mpr fun y mem =>
      olds y (mem_append_right l₁ mem) (new.subset (mem_append_left _ mem))
    rw [none, append_nil]
    exact old

variable {ι : Type} (related : ι → ι → Prop)

/-- The call `a` returned before the related call `c` began. -/
def Earlier (history : List (Event ι)) (a c : ι) : Prop :=
  related a c ∧ [.returned a, .began c] <+ history

instance [DecidableEq ι] [DecidableRel related] (history : List (Event ι)) (a c : ι) :
    Decidable (Earlier related history a c) :=
  inferInstanceAs (Decidable (_ ∧ _))

/-- No task is executed after a related call, begun after the task was added, has returned. -/
def Respected (history : List (Event ι)) : Prop :=
  ∀ a c, related a c → ¬ [.returned a, .began c, .returned c, .executed a] <+ history

inductive Step [DecidableEq ι] (v v' : View ι) : Prop where
  | quiet (stage : v'.stage = v.stage) (history : v'.history = v.history)
      (alive : ∀ a, v'.alive a → v.alive a)
  | begins (c : ι) (before : v.stage c = .idle)
      (stage : v'.stage = update v.stage c .pending)
      (history : v'.history = v.history ++ [.began c]) (alive : ∀ a, v'.alive a → v.alive a)
  | settles (c : ι) (before : v.stage c = .pending)
      (stage : v'.stage = update v.stage c .settled) (history : v'.history = v.history)
      (alive : ∀ a, v'.alive a → v.alive a)
      (cancels : ∀ a, Earlier related v.history a c → ¬ v'.alive a)
  | returns (c : ι) (before : v.stage c = .settled)
      (stage : v'.stage = update v.stage c .returned)
      (history : v'.history = v.history ++ [.returned c])
      (alive : ∀ a, v'.alive a → v.alive a ∨ a = c)
  | executes (tasks : List ι) (stage : v'.stage = v.stage)
      (history : v'.history = v.history ++ tasks.map .executed)
      (were : ∀ a ∈ tasks, v.alive a) (alive : ∀ a, v'.alive a → v.alive a)

structure Inv (v : View ι) : Prop where
  returned : ∀ a, .returned a ∈ v.history → v.stage a = .returned
  dead : ∀ a c, Earlier related v.history a c → v.stage c = .settled ∨ v.stage c = .returned →
    ¬ v.alive a
  respected : Respected related v.history

variable {related}

theorem Inv.initial {v : View ι} (empty : v.history = []) : Inv related v := by
  refine ⟨fun a mem => ?_, fun a c earlier => ?_, fun a c _ sub => ?_⟩
  · rw [empty] at mem
    cases mem
  · rw [Earlier, empty] at earlier
    cases earlier.2
  · rw [empty] at sub
    cases sub

variable {history news : List (Event ι)} {a c : ι}

theorem Earlier.old
    (earlier : Earlier related (history ++ news) a c) (other : .began c ∉ news) :
    Earlier related history a c :=
  ⟨earlier.1, (sublist_append_cases [Event.returned a] (.began c) earlier.2).resolve_right
    fun new => other new.1⟩

theorem Respected.append (respected : Respected related history)
    (others : ∀ a, .executed a ∉ news) : Respected related (history ++ news) := fun a c rel sub =>
  respected a c rel ((sublist_append_cases [Event.returned a, .began c, .returned c]
    (.executed a) sub).resolve_right fun new => others a new.1)

variable [DecidableEq ι] {v v' : View ι}

theorem update_returned {stage : ι → Stage} (was : stage a = .returned)
    (running : stage c ≠ .returned) (new : Stage) : update stage c new a = .returned := by
  have other : a ≠ c := by
    rintro rfl
    exact running was
  rw [update_of_ne other, was]

theorem Step.returned (step : Step related v v')
    (returned : ∀ a, .returned a ∈ v.history → v.stage a = .returned) (a : ι)
    (mem : .returned a ∈ v'.history) : v'.stage a = .returned := by
  cases step with
  | quiet stage history =>
    rw [stage]
    exact returned a (history ▸ mem)
  | begins c before stage history =>
    have old : .returned a ∈ v.history := by simpa [history] using mem
    rw [stage]
    exact update_returned (returned a old) (by simp [before]) _
  | settles c before stage history =>
    rw [stage]
    exact update_returned (returned a (history ▸ mem)) (by simp [before]) _
  | returns c before stage history =>
    rw [stage]
    by_cases same : a = c
    · rw [same, update_self]
    · have old : .returned a ∈ v.history := by simpa [history, same] using mem
      exact update_returned (returned a old) (by simp [before]) _
  | executes tasks stage history =>
    have old : .returned a ∈ v.history := by simpa [history] using mem
    rw [stage]
    exact returned a old

theorem Step.dead (step : Step related v v') (inv : Inv related v)
    (earlier : Earlier related v'.history a c)
    (done : v'.stage c = .settled ∨ v'.stage c = .returned) : ¬ v'.alive a := by
  intro lives
  cases step with
  | quiet stage history alive =>
    rw [history] at earlier
    rw [stage] at done
    exact inv.dead a c earlier done (alive a lives)
  | begins d before stage history alive =>
    rw [history] at earlier
    rw [stage] at done
    by_cases same : c = d
    · rw [same, update_self] at done
      simp at done
    · rw [update_of_ne same] at done
      exact inv.dead a c (earlier.old (by simpa using same)) done (alive a lives)
  | settles d before stage history alive cancels =>
    rw [history] at earlier
    rw [stage] at done
    by_cases same : c = d
    · exact cancels a (same ▸ earlier) lives
    · rw [update_of_ne same] at done
      exact inv.dead a c earlier done (alive a lives)
  | returns d before stage history alive =>
    rw [history] at earlier
    have old := earlier.old (by simp)
    have was : v.stage c = .settled ∨ v.stage c = .returned := by
      rw [stage] at done
      by_cases same : c = d
      · exact .inl (same ▸ before)
      · rwa [update_of_ne same] at done
    obtain lived | rfl := alive a lives
    · exact inv.dead a c old was lived
    · -- `a` has returned before, and it can not return again
      have gone := inv.returned a (old.2.subset mem_cons_self)
      rw [before] at gone
      cases gone
  | executes tasks stage history were alive =>
    rw [history] at earlier
    rw [stage] at done
    exact inv.dead a c (earlier.old (by simp)) done (alive a lives)

theorem Step.respected (step : Step related v v') (inv : Inv related v) :
    Respected related v'.history := by
  cases step with
  | quiet stage history | settles c before stage history =>
    rw [history]
    exact inv.respected
  | begins c before stage history | returns c before stage history =>
    rw [history]
    exact inv.respected.append (by simp)
  | executes tasks stage history were =>
    rw [history]
    intro a c rel sub
    obtain old | ⟨executed, olds⟩ := sublist_append_cases
      [Event.returned a, .began c, .returned c] (.executed a) sub
    · exact inv.respected a c rel old
    · have task : a ∈ tasks := by simpa using executed
      have order := olds (by simp)
      have early : Earlier related v.history a c :=
        ⟨rel, (show [Event.returned a, .began c] <+ [.returned a, .began c, .returned c] by
          simp).trans order⟩
      have done := inv.returned c (order.subset (by simp))
      exact inv.dead a c early (.inr done) (were a task)

theorem Step.inv (step : Step related v v') (inv : Inv related v) : Inv related v' :=
  ⟨step.returned inv.returned, fun _ _ => step.dead inv, step.respected inv⟩

end Monitor.Cancelling
