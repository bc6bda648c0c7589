import Mathlib

/-! # Buffered channels

A channel with a bounded buffer as Go has it, and what the non-blocking forms of sending
and receiving do to it. Channels live under handles in a store, since a program keeps
references to them; `updateAll` is a loop that touches a list of them.
-/

namespace Monitor.Channel

structure Chan (A : Type) where
  buffer : List A
  closed : Bool
  deriving DecidableEq, Repr

section

variable {A : Type}

def Chan.fresh : Chan A := ⟨[], false⟩

/-- A send in a `select` with a default case, on an open channel. -/
def Chan.offer (capacity : Nat) (a : A) (ch : Chan A) : Chan A :=
  if ch.buffer.length < capacity then { ch with buffer := ch.buffer ++ [a] } else ch

/-- Whether a receive would not block; on a closed channel it never does. -/
def Chan.ready (ch : Chan A) : Bool := !ch.buffer.isEmpty || ch.closed

def Chan.received (ch : Chan A) : Chan A := { ch with buffer := ch.buffer.tail }

@[simp] theorem Chan.offer_closed (capacity : Nat) (a : A) (ch : Chan A) :
    (ch.offer capacity a).closed = ch.closed := by
  unfold offer
  split <;> rfl

@[simp] theorem Chan.received_closed (ch : Chan A) : ch.received.closed = ch.closed := rfl

theorem Chan.ready_open {ch : Chan A} (isOpen : ch.closed = false) :
    ch.ready = false ↔ ch.buffer = [] := by
  simp [ready, isOpen]

/-- A loop over handles that changes each channel. -/
def updateAll (f : Chan A → Chan A) (handles : List Nat) (channels : Nat → Chan A) : Nat → Chan A :=
  handles.foldl (fun channels h => Function.update channels h (f (channels h))) channels

theorem updateAll_apply (f : Chan A → Chan A) {handles : List Nat} (nodup : handles.Nodup)
    (channels : Nat → Chan A) (h : Nat) :
    updateAll f handles channels h = if h ∈ handles then f (channels h) else channels h := by
  unfold updateAll
  induction handles generalizing channels with
  | nil => rfl
  | cons first handles ih =>
    obtain ⟨apart, nodup⟩ := List.nodup_cons.mp nodup
    simp only [List.foldl_cons, ih nodup, List.mem_cons]
    by_cases same : h = first
    · subst same
      simp [apart]
    · simp [same]

end

end Monitor.Channel
