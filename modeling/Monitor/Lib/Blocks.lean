import Mathlib

/-! # Loops that take several elements at a time

An array is what a pointer to it reads: a function of the index. A loop in blocks handles
`last + 1` elements in each round while a whole block is left, and a second loop handles the
elements that remain. What each round keeps holds where the loops end.
-/

namespace Monitor.Blocks

open List

universe u v

variable {σ : Type u}

/-- `for (; i + last < len; i += last + 1)`, with the index where it ends. -/
def blockLoop (last : Nat) (body : Nat → σ → σ) (len i : Nat) (s : σ) : Nat × σ :=
  if i + last < len then blockLoop last body len (i + (last + 1)) (body i s) else (i, s)
termination_by len - i

/-- `for (; i < len; ++i)`. -/
def forLoop (body : Nat → σ → σ) (len i : Nat) (s : σ) : σ :=
  if i < len then forLoop body len (i + 1) (body i s) else s
termination_by len - i

section Rules

variable (P : Nat → σ → Prop) {body : Nat → σ → σ} {len : Nat}

theorem blockLoop_rule {last : Nat} (kept : ∀ i s, i + last < len → P i s → P (i + (last + 1)) (body i s))
    {i : Nat} {s : σ} (lt : i ≤ len) (holds : P i s) :
    (blockLoop last body len i s).1 ≤ len ∧ P (blockLoop last body len i s).1
    (blockLoop last body len i s).2 := by
  fun_induction blockLoop last body len i s with
  | case1 i s room ih => exact ih (by omega) (kept i s room holds)
  | case2 i s full => exact ⟨lt, holds⟩

theorem forLoop_rule (kept : ∀ i s, i < len → P i s → P (i + 1) (body i s)) {i : Nat} {s : σ}
    (lt : i ≤ len) (holds : P i s) : P len (forLoop body len i s) := by
  fun_induction forLoop body len i s with
  | case1 i s room ih => exact ih room (kept i s room holds)
  | case2 i s full =>
    have ends : i = len := by omega
    exact ends ▸ holds

end Rules

variable {α : Type v} {last : Nat}

/-- A register with `last + 1` lanes. -/
abbrev Lanes (last : Nat) (α : Type v) : Type v := Fin (last + 1) → α

def load (a : Nat → α) (i : Nat) : Lanes last α := fun lane => a (i + lane)

def store (result : Nat → α) (i : Nat) (v : Lanes last α) : Nat → α := fun j =>
  if inside : i ≤ j ∧ j < i + (last + 1) then v ⟨j - i, by omega⟩ else result j

def lanewise (op : α → α → α) (v w : Lanes last α) : Lanes last α := fun lane => op (v lane) (w lane)

/-- The lanes from the first to the last, combined one after the other. -/
def horizontal (op : α → α → α) (v : Lanes last α) : α := (List.ofFn fun k : Fin last => v k.succ).foldl op
    (v 0)

variable (v : Lanes last α)

theorem store_of_inside {result : Nat → α} {i j : Nat}
    (lt : i ≤ j ∧ j < i + (last + 1)) : store result i v j = v ⟨j - i, by omega⟩ := dif_pos lt

theorem store_of_outside {result : Nat → α} {i j : Nat}
    (outside : ¬ (i ≤ j ∧ j < i + (last + 1))) : store result i v j = result j := dif_neg outside

theorem horizontal_add {M : Type v} [AddCommMonoid M] (v : Lanes last M) :
    horizontal (· + ·) v = ∑ lane, v lane := by
  have shifted : ∀ (xs : List M) (x : M), xs.foldl (· + ·) x = x + xs.sum := by
    intro xs
    induction xs with
    | nil => exact fun x => (add_zero x).symm
    | cons y xs ih => exact fun x => by rw [foldl_cons, ih, sum_cons, add_assoc]
  rw [horizontal, shifted, sum_ofFn, Fin.sum_univ_succ]

theorem sum_load {M : Type v} [AddCommMonoid M] (a : Nat → M) (i : Nat) :
    ∑ j ∈ Finset.range (i + (last + 1)), a j =
      ∑ j ∈ Finset.range i, a j + ∑ lane : Fin (last + 1), load a i lane := by
  rw [Finset.sum_range_add, Finset.sum_range fun j => a (i + j)]
  rfl

section Largest

variable [LinearOrder α]

theorem horizontal_max : IsGreatest (Set.range v) (horizontal max v) := by
  have folded : ∀ (xs : List α) (x : α), IsGreatest (insert x { y | y ∈ xs }) (xs.foldl max x) := by
    intro xs
    induction xs with
    | nil => exact fun x => by simp [IsGreatest, upperBounds]
    | cons y xs ih =>
      intro x
      obtain ⟨found, bound⟩ := ih (max x y)
      constructor
      · cases found with
        | inl same =>
          rw [foldl_cons, same]
          cases max_choice x y with
          | inl first => exact .inl first
          | inr second => exact .inr (by simp [second])
        | inr later => exact .inr (mem_cons_of_mem y later)
      · intro z mem
        have start : max x y ≤ (y :: xs).foldl max x := bound (Set.mem_insert _ _)
        cases mem with
        | inl same => exact same ▸ (le_max_left x y).trans start
        | inr listed =>
          cases mem_cons.mp listed with
          | inl same => exact same ▸ (le_max_right x y).trans start
          | inr later => exact bound (.inr later)
  have lanes : Set.range v = insert (v 0) { y | y ∈ List.ofFn fun k : Fin last => v k.succ } := by
    ext y
    simp [Fin.exists_fin_succ, mem_ofFn, eq_comm]
  rw [lanes]
  exact folded _ _

end Largest

end Monitor.Blocks
