import Mathlib

/-! # Threads and the mutexes of objects

Threads call methods of objects, each guarded by a mutex of its object; a thread is in at most
one method. Of a thread only its place is seen, the object and a label, and of an object who
owns its mutex. In an `Owned` view exactly the threads at a label that `holds` own the mutex of
their object. The moves below are all that a thread can do to its place and to the mutex.
-/

namespace Monitor.Mutexes

open Function

@[ext]
structure View (T C L : Type) where
  place : T → Option (C × L)
  owner : C → Option T

variable {T C L : Type}

namespace View

def Owned (holds : L → Bool) (v : View T C L) : Prop :=
  ∀ t c, v.owner c = some t ↔ ∃ l, v.place t = some (c, l) ∧ holds l = true

section Places

variable {holds : L → Bool} {v : View T C L} {t : T} {c : C} {l : L}

theorem Owned.apart (owned : v.Owned holds) (free : ∀ c l, v.place t = some (c, l) → holds l = false)
    (c : C) : v.owner c ≠ some t := by
  intro mine
  obtain ⟨l, placed, held⟩ := (owned t c).mp mine
  simp [free c l placed] at held

theorem Owned.owner_eq (owned : v.Owned holds) (placed : v.place t = some (c, l)) (held : holds l = true) :
    v.owner c = some t :=
  (owned t c).mpr ⟨l, placed, held⟩

theorem Owned.object (owned : v.Owned holds) (placed : v.place t = some (c, l)) {d : C}
    (mine : v.owner d = some t) : d = c := by
  obtain ⟨l', placed', _⟩ := (owned t d).mp mine
  simp only [placed, Option.some.injEq, Prod.mk.injEq] at placed'
  exact placed'.1.symm

end Places

variable [DecidableEq T]

/-- A thread goes on without touching a mutex. -/
def move (v : View T C L) (t : T) (next : Option (C × L)) : View T C L :=
  { v with place := Function.update v.place t next }

theorem move_same (v : View T C L) {t : T} {next : Option (C × L)} (same : v.place t = next) :
    v.move t next = v := by
  unfold move
  simp [← same]

variable [DecidableEq C]

/-- A thread gets the mutex of `c`. -/
def acquire (v : View T C L) (t : T) (c : C) (l : L) : View T C L where
  place := Function.update v.place t (some (c, l))
  owner := Function.update v.owner c (some t)

theorem move_of_same (v : View T C L) (t : T) (next : Option (C × L)) {c : C} {o : Option T}
    (same : v.owner c = o) :
    (⟨update v.place t next, update v.owner c o⟩ : View T C L) = v.move t next := by
  subst same
  simp [move]

/-- A thread gives the mutex of `c` back and returns. -/
def release (v : View T C L) (t : T) (c : C) : View T C L where
  place := Function.update v.place t none
  owner := Function.update v.owner c none

section Moves

variable (v : View T C L) (t u : T) (c d : C) (l : L)

omit [DecidableEq C] in
@[grind =]
theorem move_place (next : Option (C × L)) :
    (v.move t next).place u = if u = t then next else v.place u :=
  update_apply ..

omit [DecidableEq C] in
@[grind =]
theorem move_owner (next : Option (C × L)) : (v.move t next).owner d = v.owner d := rfl

@[grind =]
theorem acquire_place : (v.acquire t c l).place u = if u = t then some (c, l) else v.place u :=
  update_apply ..

@[grind =]
theorem acquire_owner : (v.acquire t c l).owner d = if d = c then some t else v.owner d :=
  update_apply ..

@[grind =]
theorem release_place : (v.release t c).place u = if u = t then none else v.place u :=
  update_apply ..

@[grind =]
theorem release_owner : (v.release t c).owner d = if d = c then none else v.owner d :=
  update_apply ..

end Moves

variable {holds : L → Bool} {v : View T C L} {t : T} {c : C} {l : L}

omit [DecidableEq C] in
theorem Owned.move (owned : v.Owned holds) (free : ∀ c l, v.place t = some (c, l) → holds l = false)
    {next : Option (C × L)} (waits : ∀ c l, next = some (c, l) → holds l = false) :
    (v.move t next).Owned holds := by
  intro u d
  by_cases same : u = t
  · subst same
    simp only [View.move, update_self]
    refine iff_of_false (owned.apart free d) ?_
    rintro ⟨l, placed, held⟩
    simp [waits d l placed] at held
  · simpa only [View.move, update_of_ne same] using owned u d

omit [DecidableEq C] in
theorem Owned.proceed (owned : v.Owned holds) (placed : v.place t = some (c, l)) (held : holds l = true)
    {l' : L} (held' : holds l' = true) : (v.move t (some (c, l'))).Owned holds := by
  intro u d
  by_cases same : u = t
  · subst same
    simp only [View.move, update_self]
    constructor
    · intro mine
      cases owned.object placed mine
      exact ⟨l', rfl, held'⟩
    · rintro ⟨l'', placed', _⟩
      cases placed'
      exact owned.owner_eq placed held
  · simpa only [View.move, update_of_ne same] using owned u d

theorem Owned.acquire (owned : v.Owned holds) (free : ∀ c l, v.place t = some (c, l) → holds l = false)
    (available : v.owner c = none) (held : holds l = true) : (v.acquire t c l).Owned holds := by
  intro u d
  simp only [View.acquire]
  by_cases same : u = t
  · subst same
    by_cases mine : d = c
    · subst mine
      simp [held]
    · have none := owned.apart free d
      simp [mine, none, Ne.symm mine]
  · simp only [update_of_ne same]
    by_cases mine : d = c
    · subst mine
      have nobody := owned u d
      simp only [available, reduceCtorEq, false_iff] at nobody
      simp [nobody, Ne.symm same]
    · simpa only [update_of_ne mine] using owned u d

theorem Owned.release (owned : v.Owned holds) (placed : v.place t = some (c, l)) (held : holds l = true) :
    (v.release t c).Owned holds := by
  have mine := owned.owner_eq placed held
  intro u d
  simp only [View.release]
  by_cases same : u = t
  · subst same
    simp only [update_self, reduceCtorEq, false_and, exists_false, iff_false]
    by_cases other : d = c
    · simp [other]
    · simp only [update_of_ne other]
      exact fun elsewhere => other (owned.object placed elsewhere)
  · simp only [update_of_ne same]
    by_cases other : d = c
    · subst other
      have notMine := owned u d
      simp only [mine, Option.some.injEq, Ne.symm same, false_iff] at notMine
      simp [notMine]
    · simpa only [update_of_ne other] using owned u d

end View

end Monitor.Mutexes
