import Mathlib

/-! # A read-write mutex in one goroutine

Several readers can have the mutex at once, a writer only alone, and nothing is remembered
about who has it: a goroutine that asks for what it cannot get waits, also when it is itself
in the way. With no other goroutine around that is forever, so a call that blocks has no
result.
-/

namespace Monitor

structure RWMutex where
  readers : Nat
  writer : Bool
  deriving DecidableEq

namespace RWMutex

def free : RWMutex := ⟨0, false⟩

def lock (m : RWMutex) : Option RWMutex :=
  if m.writer ∨ 0 < m.readers then none else some { m with writer := true }

def unlock (m : RWMutex) : RWMutex := { m with writer := false }

def rLock (m : RWMutex) : Option RWMutex :=
  if m.writer then none else some { m with readers := m.readers + 1 }

def rUnlock (m : RWMutex) : RWMutex := { m with readers := m.readers - 1 }

end RWMutex

/-- An object with the mutex that guards it. -/
structure Guarded (S : Type) where
  mu : RWMutex
  value : S

/-- A method of a guarded object. -/
abbrev Blocking (S A : Type) : Type := Guarded S → Option (A × Guarded S)

namespace Blocking

variable {S A : Type}

/-- A body between `Lock` and a deferred `Unlock`. -/
def withLock (body : Blocking S A) : Blocking S A := fun g =>
  g.mu.lock.bind fun mu =>
    (body ⟨mu, g.value⟩).map fun r => (r.1, ⟨r.2.mu.unlock, r.2.value⟩)

/-- A body between `RLock` and a deferred `RUnlock`. -/
def withRLock (body : Blocking S A) : Blocking S A := fun g =>
  g.mu.rLock.bind fun mu =>
    (body ⟨mu, g.value⟩).map fun r => (r.1, ⟨r.2.mu.rUnlock, r.2.value⟩)

theorem withLock_held (body : Blocking S A) {g : Guarded S} (held : g.mu.writer = true) :
    withLock body g = none := by
  rw [withLock, RWMutex.lock, if_pos (.inl held)]
  rfl

end Blocking

end Monitor
