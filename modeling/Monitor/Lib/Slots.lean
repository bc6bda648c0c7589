import Mathlib

/-! # A table of slots

A loop over a table that changes the first slot that fits and stops there. Its result is absent
when no slot fits; otherwise exactly one slot is different.
-/

namespace Monitor.Slots

open List

variable {α : Type}

/-- The table with the first slot changed that `p` accepts. -/
def modifyFirst (p : α → Bool) (f : α → α) : List α → Option (List α)
  | [] => none
  | a :: as => if p a then some (f a :: as) else (modifyFirst p f as).map (a :: ·)

variable {p q : α → Bool} {f : α → α} {slots slots' : List α}

theorem modifyFirst_eq_none : modifyFirst p f slots = none ↔ ∀ a ∈ slots, p a = false := by
  induction slots with
  | nil => simp [modifyFirst]
  | cons a as ih =>
    cases fits : p a with
    | true => simp [modifyFirst, fits]
    | false => simp [modifyFirst, fits, ih]

section

variable (changed : modifyFirst p f slots = some slots')
include changed

theorem modifyFirst_split :
    ∃ before a after, slots = before ++ a :: after ∧ slots' = before ++ f a :: after ∧ p a = true ∧
      slots.find? p = some a := by
  induction slots generalizing slots' with
  | nil => cases changed
  | cons a as ih =>
    cases fits : p a with
    | true =>
      rw [modifyFirst, if_pos fits] at changed
      cases changed
      exact ⟨[], a, as, rfl, rfl, fits, by rw [find?_cons_of_pos fits]⟩
    | false =>
      simp only [modifyFirst, fits, Bool.false_eq_true, if_false, Option.map_eq_some_iff] at changed
      obtain ⟨rest, later, same⟩ := changed
      obtain ⟨before, b, after, split, split', accepted, first⟩ := ih later
      subst split split' same
      exact ⟨a :: before, b, after, rfl, rfl, accepted, by simpa [fits] using first⟩

theorem find?_modifyFirst (stays : ∀ a, p (f a) = p a) : slots'.find? p = (slots.find? p).map f := by
  induction slots generalizing slots' with
  | nil => cases changed
  | cons a as ih =>
    cases fits : p a with
    | true =>
      rw [modifyFirst, if_pos fits] at changed
      cases changed
      rw [find?_cons_of_pos fits, find?_cons_of_pos ((stays a).trans fits), Option.map_some]
    | false =>
      simp only [modifyFirst, fits, Bool.false_eq_true, if_false, Option.map_eq_some_iff] at changed
      obtain ⟨rest, later, same⟩ := changed
      subst same
      simpa [fits] using ih later

theorem modifyFirst_length : slots'.length = slots.length := by
  obtain ⟨before, a, after, split, split', _⟩ := modifyFirst_split changed
  simp [split, split']

end

theorem modifyFirst_of_find? {a : α} (found : slots.find? p = some a) :
    ∃ slots', modifyFirst p f slots = some slots' := by
  cases changed : modifyFirst p f slots with
  | none =>
    have unfit := modifyFirst_eq_none.mp changed a (mem_of_find?_eq_some found)
    rw [find?_some found] at unfit
    cases unfit
  | some slots' => exact ⟨slots', rfl⟩

section

variable (changed : modifyFirst p f slots = some slots')
include changed

theorem countP_modifyFirst_up
    (off : ∀ a, p a = true → q a = false) (on : ∀ a, p a = true → q (f a) = true) :
    slots'.countP q = slots.countP q + 1 := by
  obtain ⟨before, a, after, split, split', fits, _⟩ := modifyFirst_split changed
  subst split split'
  simp only [countP_append, countP_cons, off a fits, on a fits, if_true, Bool.false_eq_true, if_false]
  omega

theorem countP_modifyFirst_down
    (on : ∀ a, p a = true → q a = true) (off : ∀ a, p a = true → q (f a) = false) :
    slots.countP q = slots'.countP q + 1 := by
  obtain ⟨before, a, after, split, split', fits, _⟩ := modifyFirst_split changed
  subst split split'
  simp only [countP_append, countP_cons, off a fits, on a fits, if_true, Bool.false_eq_true, if_false]
  omega

theorem countP_modifyFirst_same
    (same : ∀ a, p a = true → q (f a) = q a) : slots'.countP q = slots.countP q := by
  obtain ⟨before, a, after, split, split', fits, _⟩ := modifyFirst_split changed
  subst split split'
  simp only [countP_append, countP_cons, same a fits]

theorem map_modifyFirst {β : Type} {g : α → β}
    (same : ∀ a, g (f a) = g a) : slots'.map g = slots.map g := by
  obtain ⟨before, a, after, split, split', _⟩ := modifyFirst_split changed
  simp [split, split', same]

theorem forall_modifyFirst {P : α → Prop}
    (all : ∀ a ∈ slots, P a) : (∀ a ∈ slots', P a) ↔ ∀ a, slots.find? p = some a → P (f a) := by
  obtain ⟨before, a, after, split, split', fits, first⟩ := modifyFirst_split changed
  rw [first]
  subst split split'
  constructor
  · intro each b found
    cases found
    exact each _ (by simp)
  · intro each b mem
    cases mem_append.mp mem with
    | inl early => exact all b (by simp [early])
    | inr rest =>
      cases mem_cons.mp rest with
      | inl here => exact here ▸ each a rfl
      | inr late => exact all b (by simp [late])

end

end Monitor.Slots
