import Mathlib

/-! # Methods of an object that may panic

A method of an object with state `S` is an `EStateM` action; a panic is an error, and the
object stays as it was when the panic arose. `Safe P m` says that `m` returns from any object
with `P` and leaves one with `P`, `Keeps P m` says the latter also of a panic.
-/

namespace Monitor.Methods

variable {E S A B : Type}

/-- The object after a call, whether it returned or panicked. -/
def after : EStateM.Result E S A → S
  | .ok _ s => s
  | .error _ s => s

def returned : EStateM.Result E S A → Bool
  | .ok _ _ => true
  | .error _ _ => false

theorem bind_apply (m : EStateM E S A) (f : A → EStateM E S B) (s : S) :
    (m >>= f) s = match m s with
      | .ok a s' => f a s'
      | .error e s' => .error e s' := rfl

variable {m : EStateM E S A}

theorem bind_ok {s s' : S} {a : A} (ok : m s = .ok a s') (f : A → EStateM E S B) :
    (m >>= f) s = f a s' := by
  simp only [bind_apply, ok]

section Actions

variable (s : S)

@[simp] theorem pure_apply (a : A) : (pure a : EStateM E S A) s = .ok a s := rfl

@[simp] theorem modify_apply (f : S → S) : (modify f : EStateM E S Unit) s = .ok () (f s) := rfl

@[simp] theorem get_bind (k : S → EStateM E S A) : (get >>= k) s = k s s := rfl

@[simp] theorem modify_bind (f : S → S) (k : Unit → EStateM E S A) :
    (modify f >>= k) s = k () (f s) := rfl

@[simp] theorem throw_bind (e : E) (k : A → EStateM E S B) :
    ((throw e : EStateM E S A) >>= k) s = .error e s := rfl

end Actions

def Safe (P : S → Prop) (m : EStateM E S A) : Prop :=
  ∀ s, P s → ∃ a s', m s = .ok a s' ∧ P s'

def Keeps (P : S → Prop) (m : EStateM E S A) : Prop :=
  ∀ s, P s → P (after (m s))

variable {P : S → Prop}

theorem Safe.pure (a : A) : Safe P (Pure.pure a : EStateM E S A) :=
  fun s holds => ⟨a, s, rfl, holds⟩

theorem Safe.bind {f : A → EStateM E S B} (first : Safe P m)
    (second : ∀ a, Safe P (f a)) : Safe P (m >>= f) := by
  intro s holds
  obtain ⟨a, s', ok, holds'⟩ := first s holds
  simp only [bind_ok ok]
  exact second a s' holds'

theorem Safe.get : Safe P (MonadState.get : EStateM E S S) :=
  fun s holds => ⟨s, s, rfl, holds⟩

theorem Safe.modifies {f : S → S} (keeps : ∀ s, P s → P (f s)) : Safe P (modify f : EStateM E S Unit) :=
  fun s holds => ⟨(), f s, rfl, keeps s holds⟩

theorem Safe.forM {m : A → EStateM E S Unit} (each : ∀ a, Safe P (m a)) (as : List A) :
    Safe P (as.forM m) := by
  induction as with
  | nil => exact Safe.pure ()
  | cons a as ih => exact (each a).bind fun _ => ih

theorem Safe.keeps (safe : Safe P m) : Keeps P m := by
  intro s holds
  obtain ⟨a, s', ok, holds'⟩ := safe s holds
  simpa only [ok, after] using holds'

theorem Keeps.bind {f : A → EStateM E S B} (first : Keeps P m)
    (second : ∀ a, Keeps P (f a)) : Keeps P (m >>= f) := by
  intro s holds
  have middle := first s holds
  simp only [bind_apply]
  cases ran : m s with
  | ok a s' =>
    simp only [ran, after] at middle
    exact second a s' middle
  | error e s' =>
    simp only [ran, after] at middle
    exact middle

end Monitor.Methods
