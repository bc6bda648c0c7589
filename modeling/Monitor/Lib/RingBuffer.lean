import Mathlib

/-! # Lists in a ring of slots

A list that lies in consecutive slots of a ring, from the slot `head` up to but not
including the slot `tail`. The list is always shorter than the ring, so that equal
indices mean that it is empty.
-/

namespace Monitor.RingBuffer

open List Function

theorem add_mod_slot {a d c : Nat} (slot : a < c) (lap : d ≤ c) :
    (a + d) % c = if a + d < c then a + d else a + d - c := by
  split
  · rename_i lt
    exact Nat.mod_eq_of_lt lt
  · rw [Nat.mod_eq_sub_mod (by omega), Nat.mod_eq_of_lt (by omega)]

/-- `items` lies in the slots from `head` up to `tail`. -/
structure Window {α : Type} (capacity : Nat) (slots : Nat → α) (head tail : Nat)
    (items : List α) : Prop where
  head_lt : head < capacity
  tail_eq : tail = (head + items.length) % capacity
  room : items.length < capacity
  held : ∀ (k : Nat) x, items[k]? = some x → slots ((head + k) % capacity) = x

namespace Window

variable {α : Type} {capacity : Nat} {slots : Nat → α} {head tail : Nat} {items : List α} {x : α}

theorem empty (pos : 0 < capacity) (slots : Nat → α) : Window capacity slots 0 0 [] where
  head_lt := pos
  tail_eq := (Nat.zero_mod capacity).symm
  room := pos
  held k x found := by cases found

section

variable (h : Window capacity slots head tail items)
include h

theorem tail_slot :
    tail = if head + items.length < capacity then head + items.length
      else head + items.length - capacity := by
  rw [h.tail_eq, add_mod_slot h.head_lt h.room.le]

theorem tail_lt : tail < capacity := by
  rw [h.tail_eq]
  exact Nat.mod_lt _ (Nat.zero_lt_of_lt h.head_lt)

theorem empty_iff : head = tail ↔ items = [] := by
  have slot := h.tail_slot
  have small := h.head_lt
  have room := h.room
  rw [← length_eq_zero_iff]
  split at slot <;> omega

theorem full_iff : (tail + 1) % capacity = head ↔ items.length = capacity - 1 := by
  have slot := h.tail_slot
  have small := h.head_lt
  have room := h.room
  rw [add_mod_slot h.tail_lt (by omega)]
  split at slot <;> split <;> omega

theorem distance :
    (if tail ≥ head then tail - head else capacity - head + tail) = items.length := by
  have slot := h.tail_slot
  have small := h.head_lt
  have room := h.room
  split at slot <;> split <;> omega

theorem push (more : items.length ≠ capacity - 1) (x : α) :
    Window capacity (update slots tail x) head ((tail + 1) % capacity) (items ++ [x]) where
  head_lt := h.head_lt
  tail_eq := by
    rw [h.tail_eq, Nat.mod_add_mod, length_append, length_singleton, Nat.add_assoc]
  room := by
    have room := h.room
    rw [length_append, length_singleton]
    omega
  held k y found := by
    have room := h.room
    rcases Nat.lt_or_ge k items.length with lt | behind
    · rw [getElem?_append_left lt] at found
      -- a slot that is in use is not the one at the tail
      have other : (head + k) % capacity ≠ tail := by
        rw [h.tail_slot, add_mod_slot h.head_lt (by omega)]
        split <;> split <;> omega
      rw [update_of_ne other]
      exact h.held k y found
    · rw [getElem?_append_right behind] at found
      have last : k = items.length := by
        have := (List.getElem?_eq_some_iff.mp found).1
        rw [length_singleton] at this
        omega
      subst last
      rw [Nat.sub_self, getElem?_cons_zero] at found
      cases found
      rw [← h.tail_eq, update_self]

end

theorem front (h : Window capacity slots head tail (x :: items)) : slots head = x := by
  have first := h.held 0 x rfl
  rwa [Nat.add_zero, Nat.mod_eq_of_lt h.head_lt] at first

theorem pop (h : Window capacity slots head tail (x :: items)) (y : α) :
    Window capacity (update slots head y) ((head + 1) % capacity) tail items where
  head_lt := Nat.mod_lt _ (Nat.zero_lt_of_lt h.head_lt)
  tail_eq := by
    rw [h.tail_eq, Nat.mod_add_mod, length_cons, Nat.add_right_comm, Nat.add_assoc]
  room := by
    have room := h.room
    rw [length_cons] at room
    omega
  held k z found := by
    have room := h.room
    have lt := (List.getElem?_eq_some_iff.mp found).1
    rw [length_cons] at room
    have other : (head + (k + 1)) % capacity ≠ head := by
      rw [add_mod_slot h.head_lt (by omega)]
      split <;> omega
    rw [Nat.mod_add_mod, Nat.add_assoc, Nat.add_comm 1 k, update_of_ne other]
    exact h.held (k + 1) z found

end Window

end Monitor.RingBuffer
