import Mathlib

/-! # Sequences that agree below every shared tag

Two sequences match when equal tags at one position force them to be equal up to
there. `splice` is the one operation replication needs: take over the first `n`
elements of a source, and touch nothing when they are already in place.
-/

namespace Monitor.Matching

open List

variable {α τ : Type} {tag : α → τ} {xs ys zs : List α}

def Matches (tag : α → τ) (xs ys : List α) : Prop :=
  ∀ (i : Nat) x y, xs[i]? = some x → ys[i]? = some y → tag x = tag y → ∀ j ≤ i, xs[j]? = ys[j]?

theorem Matches.take_eq (h : Matches tag xs ys) {i : Nat} {x y : α}
    (hx : xs[i]? = some x) (hy : ys[i]? = some y) (same : tag x = tag y) :
    xs.take (i + 1) = ys.take (i + 1) := by
  apply ext_getElem?
  intro j
  simp only [getElem?_take]
  split
  · exact h i x y hx hy same j (by omega)
  · rfl

theorem Matches.take (h : Matches tag xs ys) (n : Nat) : Matches tag (xs.take n) ys := by
  intro i x y hx hy same j below
  have lt : i < n := by
    by_contra outside
    simp [outside] at hx
  simp only [getElem?_take, if_pos lt] at hx
  rw [getElem?_take, if_pos (by omega)]
  exact h i x y hx hy same j below

theorem Matches.refl (tag : α → τ) (xs : List α) : Matches tag xs xs :=
  fun _ _ _ _ _ _ _ _ => rfl

/-- The sequence after taking over the first `n` elements of `ys`. -/
def splice [DecidableEq α] (xs ys : List α) (n : Nat) : List α :=
  if xs.take n = ys.take n then xs else ys.take n

variable [DecidableEq α]

theorem splice_of_agree {n : Nat} (h : xs.take n = ys.take n) : splice xs ys n = xs :=
  if_pos h

theorem splice_take (xs ys : List α) (n : Nat) : (splice xs ys n).take n = ys.take n := by
  simp only [splice]
  split
  · assumption
  · rw [take_take, Nat.min_self]

theorem Matches.splice (hx : Matches tag xs zs) (hy : Matches tag ys zs) (n : Nat) :
    Matches tag (splice xs ys n) zs := by
  simp only [Matching.splice]
  split
  · exact hx
  · exact hy.take n

theorem splice_forall {P : Nat → α → Prop} (n : Nat)
    (hx : ∀ (i : Nat) x, xs[i]? = some x → P i x) (hy : ∀ i y, ys[i]? = some y → P i y) :
    ∀ i z, (splice xs ys n)[i]? = some z → P i z := by
  intro i z hz
  simp only [splice] at hz
  split at hz
  · exact hx i z hz
  · simp only [getElem?_take] at hz
    split at hz
    · exact hy i z hz
    · cases hz

theorem splice_replace {n k : Nat} {y : α} (common : xs.take k = ys.take k)
    (next : ys[k]? = some y) (lt : k < n) (differs : xs[k]? ≠ some y) :
    splice (xs.take k ++ [y]) ys n = splice xs ys n := by
  have grown : xs.take k ++ [y] = ys.take (k + 1) := by
    rw [take_add_one, next, common]
    rfl
  have apart : xs.take n ≠ ys.take n := by
    intro same
    have atK := congrArg (fun l => l[k]?) same
    simp only [getElem?_take, if_pos lt] at atK
    exact differs (atK.trans next)
  rw [grown, splice, splice, if_neg apart]
  split
  · rename_i same
    rw [← same, take_take, Nat.min_eq_right (by omega)]
  · rfl

end Monitor.Matching
