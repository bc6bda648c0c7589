import Mathlib

/-! # Mean and variance of a list

The variance with respect to the mean of the list itself, and its form in running sums.
-/

namespace Monitor.Analysis

open List

section Spread

variable {R : Type} [Field R]

def variance (vs : List R) : R :=
  (vs.map fun v => (v - vs.sum / (vs.length : R)) * (v - vs.sum / (vs.length : R))).sum /
    (vs.length : R)

variable [LinearOrder R] [IsStrictOrderedRing R]

theorem variance_eq {vs : List R} (ne : vs ≠ []) :
    variance vs = ((vs.map fun v => v * v).sum - vs.sum * vs.sum / (vs.length : R)) /
      (vs.length : R) := by
  have around (c : R) (vs : List R) : (vs.map fun v => (v - c) * (v - c)).sum =
      (vs.map fun v => v * v).sum - 2 * c * vs.sum + (vs.length : R) * (c * c) := by
    induction vs with
    | nil => simp
    | cons v vs ih =>
      simp only [map_cons, sum_cons, length_cons, ih, Nat.cast_succ]
      ring
  have count : (vs.length : R) ≠ 0 := by
    simpa using ne
  rw [variance, around]
  field_simp
  ring

theorem variance_nonneg (vs : List R) : 0 ≤ variance vs := by
  refine div_nonneg (sum_nonneg fun x mem => ?_) (Nat.cast_nonneg _)
  obtain ⟨v, _, rfl⟩ := mem_map.mp mem
  exact mul_self_nonneg _

end Spread

end Monitor.Analysis
