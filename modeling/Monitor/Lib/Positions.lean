import Mathlib

/-! # Lists read by position -/

namespace Monitor.Positions

open List

variable {α β : Type}

theorem filterMap_range (l : List α) (n : Nat) :
    (List.range n).filterMap (fun i => l[i]?) = l.take n := by
  induction n with
  | zero => rfl
  | succ n ih =>
    rw [range_succ, filterMap_append, ih, take_add_one]
    cases at_ : l[n]? <;> simp [at_]

theorem map_filterMap_getElem? (f : α → β) (default : β) (l : List α) {positions : List Nat}
    (lt : ∀ i ∈ positions, i < l.length) : (positions.filterMap fun i => l[i]?).map f =
      positions.map fun i => (l.map f).getD i default := by
  induction positions with
  | nil => rfl
  | cons i positions ih =>
    have here := lt i mem_cons_self
    rw [filterMap_cons_some (getElem?_eq_getElem here), map_cons, map_cons,
      ih fun j later => lt j (mem_cons_of_mem i later), getD_eq_getElem?_getD,
      getElem?_map, getElem?_eq_getElem here]
    rfl

end Monitor.Positions
