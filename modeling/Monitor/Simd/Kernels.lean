import Monitor.Lib.Blocks

/-! # The vector operations and their three builds

`simd.cpp`. Which of the variants of an operation is built depends on the instruction set: with
AVX eight elements are taken at a time, with SSE2 four, and otherwise one. The elements are of any
type with the operations in question, and a pointer is a function of the index.
-/

namespace Monitor.Simd

open Blocks Function

universe u

/-- `HAS_AVX` and `HAS_SSE2`. -/
inductive Isa where
  | avx
  | sse2
  | scalar
  deriving DecidableEq, Repr

variable {α : Type u}

/-- One block after the other, and then the elements that are left. -/
def elementwiseLanes (last : Nat) (op : α → α → α) (a b result : Nat → α) (len : Nat) : Nat → α :=
  let (i, result) := blockLoop last
    (fun i result => store result i (lanewise op (load a i : Lanes last α) (load b i))) len 0 result
  forLoop (fun i result => update result i (op (a i) (b i))) len i result

def elementwise (isa : Isa) (op : α → α → α) (a b result : Nat → α) (len : Nat) : Nat → α :=
  match isa with
  | .avx => elementwiseLanes 7 op a b result len
  | .sse2 => elementwiseLanes 3 op a b result len
  | .scalar => forLoop (fun i result => update result i (op (a i) (b i))) len 0 result

def simdAddF32 [Add α] (isa : Isa) : (a b result : Nat → α) → (len : Nat) → Nat → α :=
  elementwise isa (· + ·)

def simdSubF32 [Sub α] (isa : Isa) : (a b result : Nat → α) → (len : Nat) → Nat → α :=
  elementwise isa (· - ·)

def simdMulF32 [Mul α] (isa : Isa) : (a b result : Nat → α) → (len : Nat) → Nat → α :=
  elementwise isa (· * ·)

section Sums

variable [Zero α] [Add α]

def sumLanes (last : Nat) (a : Nat → α) (len : Nat) : α :=
  let (i, vsum) := blockLoop last (fun i vsum => lanewise (· + ·) vsum (load a i)) len 0
    (fun _ => 0 : Lanes last α)
  forLoop (fun i sum => sum + a i) len i (horizontal (· + ·) vsum)

def simdSumF32 (isa : Isa) (a : Nat → α) (len : Nat) : α :=
  match isa with
  | .avx => sumLanes 7 a len
  | .sse2 => sumLanes 3 a len
  | .scalar => forLoop (fun i sum => sum + a i) len 0 0

def dotProductLanes [Mul α] (last : Nat) (a b : Nat → α) (len : Nat) : α :=
  let (i, vsum) := blockLoop last
    (fun i vsum =>
      let vmul : Lanes last α := lanewise (· * ·) (load a i) (load b i)
      lanewise (· + ·) vsum vmul) len 0 (fun _ => 0 : Lanes last α)
  forLoop (fun i sum => sum + a i * b i) len i (horizontal (· + ·) vsum)

def simdDotProductF32 [Mul α] (isa : Isa) (a b : Nat → α) (len : Nat) : α :=
  match isa with
  | .avx => dotProductLanes 7 a b len
  | .sse2 => dotProductLanes 3 a b len
  | .scalar => forLoop (fun i sum => sum + a i * b i) len 0 0

end Sums

section Extrema

def extremumLanes (last : Nat) (ps std : α → α → α) (a : Nat → α) (len : Nat) : α :=
  let (i, v) := blockLoop last (fun i v => lanewise ps v (load a i)) len 0 (fun _ => a 0 : Lanes last α)
  forLoop (fun i val => std val (a i)) len i (horizontal std v)

/-- The loops of the maximum and the minimum, with the comparisons of a lane and of the library;
    `empty` is the result for no elements. -/
def extremum (isa : Isa) (ps std : α → α → α) (empty : α) (a : Nat → α) (len : Nat) : α :=
  if len = 0 then
    empty
  else
    match isa with
    | .avx => extremumLanes 7 ps std a len
    | .sse2 => extremumLanes 3 ps std a len
    | .scalar => forLoop (fun i val => std val (a i)) len 1 (a 0)

variable [LT α] [DecidableLT α]

/-- One lane of `_mm_max_ps`. -/
def maxPs (x y : α) : α := if x > y then x else y

def minPs (x y : α) : α := if x < y then x else y

/-- `std::max`; of a list it is taken from the left. -/
def stdMax (x y : α) : α := if x < y then y else x

def stdMin (x y : α) : α := if y < x then y else x

def simdMaxF32 (isa : Isa) (negInfinity : α) (a : Nat → α) (len : Nat) : α :=
  extremum isa maxPs stdMax negInfinity a len

def simdMinF32 (isa : Isa) (infinity : α) (a : Nat → α) (len : Nat) : α :=
  extremum isa minPs stdMin infinity a len

end Extrema

variable (isa : Isa) (last : Nat)

section Elementwise

variable {op : α → α → α} {a b result : Nat → α} {len : Nat}

/-- Up to `n` the operation was applied, and from there on the memory is as it was. -/
def Applied (op : α → α → α) (a b result : Nat → α) (n : Nat) (current : Nat → α) : Prop :=
  ∀ j, current j = if j < n then op (a j) (b j) else result j

variable {current : Nat → α}

theorem Applied.next {n : Nat} (applied : Applied op a b result n current) :
    Applied op a b result (n + 1) (update current n (op (a n) (b n))) := by
  intro j
  by_cases here : j = n
  · subst here
    simp
  · rw [update_of_ne here, applied j]
    have same : j < n + 1 ↔ j < n := by omega
    simp only [same]

theorem Applied.block {n last : Nat} (applied : Applied op a b result n current) :
    Applied op a b result (n + (last + 1))
      (store current n (lanewise op (load a n : Lanes last α) (load b n))) := by
  intro j
  by_cases lt : n ≤ j ∧ j < n + (last + 1)
  · have index : n + (j - n) = j := by omega
    rw [store_of_inside _ lt, if_pos lt.2]
    simp only [lanewise, load, index]
  · have same : j < n + (last + 1) ↔ j < n := by omega
    rw [store_of_outside _ lt, applied j]
    simp only [same]

theorem applied_start (op : α → α → α) (a b result : Nat → α) : Applied op a b result 0 result :=
  fun j => (if_neg (Nat.not_lt_zero j)).symm

theorem elementwiseLanes_applied :
    Applied op a b result len (elementwiseLanes last op a b result len) := by
  obtain ⟨lt, applied⟩ := blockLoop_rule (Applied op a b result)
    (fun i current _ holds => Applied.block holds)
    (Nat.zero_le len) (applied_start op a b result)
  exact forLoop_rule (Applied op a b result) (fun i current _ holds => Applied.next holds) lt applied

theorem elementwise_applied : Applied op a b result len (elementwise isa op a b result len) := by
  cases isa with
  | avx => exact elementwiseLanes_applied 7
  | sse2 => exact elementwiseLanes_applied 3
  | scalar =>
    exact forLoop_rule (Applied op a b result) (fun i current _ holds => Applied.next holds)
      (Nat.zero_le len)
      (applied_start op a b result)

theorem Applied.unique {n : Nat} {current' : Nat → α} (applied : Applied op a b result n current)
    (applied' : Applied op a b result n current') : current = current' :=
  funext fun j => (applied j).trans (applied' j).symm

end Elementwise

section Sums

variable {R : Type u} [CommRing R]

/-- The elements before `i`, added up. -/
def Added (a : Nat → R) (i : Nat) (sum : R) : Prop := sum = ∑ j ∈ Finset.range i, a j

theorem Added.next {a : Nat → R} {i : Nat} {sum : R} (added : Added a i sum) : Added a (i + 1)
    (sum + a i) := by
  rw [Added, Finset.sum_range_succ, ← added]

theorem Added.block {a : Nat → R} {i last : Nat} {vsum : Lanes last R}
    (added : Added a i (∑ lane, vsum lane)) :
    Added a (i + (last + 1)) (∑ lane, lanewise (· + ·) vsum (load a i) lane) := by
  rw [Added, sum_load, ← added, ← Finset.sum_add_distrib]
  rfl

theorem sumLanes_eq (a : Nat → R) (len : Nat) : Added a len (sumLanes last a len) := by
  have nothing : Added a 0 (∑ lane : Fin (last + 1), (0 : R)) := by simp [Added]
  obtain ⟨lt, added⟩ := blockLoop_rule (fun i (vsum : Lanes last R) => Added a i (∑ lane, vsum lane))
    (fun i vsum _ holds => Added.block holds) (Nat.zero_le len) nothing
  have total := horizontal_add (blockLoop last (fun i vsum => lanewise (· + ·) vsum (load a i)) len 0
    (fun _ => 0 : Lanes last R)).2
  exact forLoop_rule (Added a) (fun i sum _ holds => holds.next) lt (total ▸ added)

theorem simdSumF32_eq (a : Nat → R) (len : Nat) :
    simdSumF32 isa a len = ∑ j ∈ Finset.range len, a j := by
  cases isa with
  | avx => exact sumLanes_eq 7 a len
  | sse2 => exact sumLanes_eq 3 a len
  | scalar => exact forLoop_rule (Added a) (fun i sum _ holds => holds.next) (Nat.zero_le len) rfl

theorem simdDotProductF32_eq (a b : Nat → R) (len : Nat) :
    simdDotProductF32 isa a b len = ∑ j ∈ Finset.range len, a j * b j := by
  have same : simdDotProductF32 isa a b len = simdSumF32 isa (fun j => a j * b j) len := by
    cases isa <;> rfl
  rw [same, simdSumF32_eq]

end Sums

section Extrema

variable {β : Type u} [LinearOrder β]

/-- A value of the array that is not below any of the first `n`. -/
def Largest (a : Nat → β) (len n : Nat) (val : β) : Prop :=
  (∃ j < len, val = a j) ∧ ∀ j < n, a j ≤ val

variable {a : Nat → β} {len : Nat}

theorem Largest.next {n : Nat} {val : β} (largest : Largest a len n val) (lt : n < len) :
    Largest a len (n + 1) (max val (a n)) := by
  obtain ⟨⟨k, below, same⟩, bound⟩ := largest
  constructor
  · cases max_choice val (a n) with
    | inl first => exact ⟨k, below, first.trans same⟩
    | inr second => exact ⟨n, lt, second⟩
  · intro j early
    cases Nat.lt_succ_iff_lt_or_eq.mp early with
    | inl before => exact (bound j before).trans (le_max_left val (a n))
    | inr here => exact here ▸ le_max_right val (a n)

theorem Largest.isGreatest {val : β} (largest : Largest a len len val) :
    IsGreatest (Set.image a (Set.Iio len)) val := by
  obtain ⟨⟨k, below, same⟩, bound⟩ := largest
  refine ⟨⟨k, below, same.symm⟩, fun y mem => ?_⟩
  obtain ⟨j, early, value⟩ := mem
  exact value ▸ bound j early

/-- Every lane has a value of the array, and each of the first `n` is reached in some lane. -/
def LargestLanes (last : Nat) (a : Nat → β) (len n : Nat) (v : Lanes last β) : Prop :=
  (∀ lane, ∃ j < len, v lane = a j) ∧ ∀ j < n, ∃ lane, a j ≤ v lane

theorem LargestLanes.block {last n : Nat} {v : Lanes last β} (largest : LargestLanes last a len n v)
    (lt : n + last < len) : LargestLanes last a len (n + (last + 1)) (lanewise max v (load a n)) := by
  obtain ⟨values, bound⟩ := largest
  constructor
  · intro lane
    obtain ⟨k, below, same⟩ := values lane
    cases max_choice (v lane) (a (n + lane)) with
    | inl first => exact ⟨k, below, first.trans same⟩
    | inr second => exact ⟨n + lane, by omega, second⟩
  · intro j early
    by_cases before : j < n
    · obtain ⟨lane, below⟩ := bound j before
      exact ⟨lane, below.trans (le_max_left _ _)⟩
    · have index : n + (j - n) = j := by omega
      refine ⟨⟨j - n, by omega⟩, ?_⟩
      simp only [lanewise, load, index]
      exact le_max_right _ _

theorem LargestLanes.horizontal {last n : Nat} {v : Lanes last β} (largest : LargestLanes last a len n v) :
    Largest a len n (Blocks.horizontal max v) := by
  obtain ⟨⟨lane, same⟩, bound⟩ := horizontal_max v
  constructor
  · obtain ⟨k, below, value⟩ := largest.1 lane
    exact ⟨k, below, same.symm.trans value⟩
  · intro j early
    obtain ⟨lane, below⟩ := largest.2 j early
    exact below.trans (bound ⟨lane, rfl⟩)

theorem extremumLanes_largest (ne : 0 < len) :
    Largest a len len (extremumLanes last max max a len) := by
  have start : LargestLanes last a len 0 fun _ => a 0 := ⟨fun _ => ⟨0, ne, rfl⟩,
    fun j early => by cases early⟩
  obtain ⟨lt, largest⟩ := blockLoop_rule (LargestLanes last a len)
    (fun i v room holds => LargestLanes.block holds room) (Nat.zero_le len) start
  exact forLoop_rule (Largest a len) (fun i val room holds => holds.next room) lt largest.horizontal

theorem extremum_isGreatest (empty : β) (ne : 0 < len) :
    IsGreatest (Set.image a (Set.Iio len)) (extremum isa max max empty a len) := by
  unfold extremum
  rw [if_neg ne.ne']
  cases isa with
  | avx => exact (extremumLanes_largest 7 ne).isGreatest
  | sse2 => exact (extremumLanes_largest 3 ne).isGreatest
  | scalar =>
    have first : Largest a len 1 (a 0) := by
      refine ⟨⟨0, ne, rfl⟩, fun j early => ?_⟩
      rw [Nat.lt_one_iff.mp early]
    exact (forLoop_rule (Largest a len) (fun i val room holds => holds.next room) ne first).isGreatest

theorem maxPs_eq : (maxPs : β → β → β) = max := by
  funext x y
  rw [maxPs, max_def]
  split
  · rename_i above
    rw [if_neg above.not_ge]
  · rename_i above
    rw [if_pos (not_lt.mp above)]

theorem stdMax_eq : (stdMax : β → β → β) = max := by
  funext x y
  exact (max_def_lt x y).symm

theorem minPs_eq : (minPs : β → β → β) = min := by
  funext x y
  exact (min_def_lt x y).symm

theorem stdMin_eq : (stdMin : β → β → β) = min := by
  funext x y
  rw [stdMin, min_comm, min_def_lt]

end Extrema

/-- For all arrays of every length the variants of each operation have the same result: element by
    element for any operations, the maximum and the minimum in any total order, and the sum and the
    dot product in any commutative ring. -/
theorem simd_variants_agree {α β R : Type u} [Add α] [Sub α] [Mul α] [LinearOrder β] [CommRing R]
    (isa isa' : Isa)
    (len : Nat) :
    (∀ a b result : Nat → α,
      simdAddF32 isa a b result len = simdAddF32 isa' a b result len ∧
      simdSubF32 isa a b result len = simdSubF32 isa' a b result len ∧
      simdMulF32 isa a b result len = simdMulF32 isa' a b result len) ∧
    (∀ (negInfinity infinity : β) (a : Nat → β),
      simdMaxF32 isa negInfinity a len = simdMaxF32 isa' negInfinity a len ∧
      simdMinF32 isa infinity a len = simdMinF32 isa' infinity a len) ∧
    (∀ a b : Nat → R,
      simdSumF32 isa a len = simdSumF32 isa' a len ∧
      simdDotProductF32 isa a b len = simdDotProductF32 isa' a b len) := by
  refine ⟨fun a b result => ?_, fun negInfinity infinity a => ?_, fun a b => ?_⟩
  · exact ⟨(elementwise_applied isa).unique (elementwise_applied isa'),
      (elementwise_applied isa).unique (elementwise_applied isa'),
      (elementwise_applied isa).unique (elementwise_applied isa')⟩
  · simp only [simdMaxF32, simdMinF32, maxPs_eq, stdMax_eq, minPs_eq, stdMin_eq]
    cases len with
    | zero => exact ⟨rfl, rfl⟩
    | succ n =>
      constructor
      · exact (extremum_isGreatest isa negInfinity n.succ_pos).unique
          (extremum_isGreatest isa' negInfinity n.succ_pos)
      · -- the minimum is the maximum of the opposite order
        have least := extremum_isGreatest (β := βᵒᵈ) (a := a) isa infinity n.succ_pos
        exact least.unique (extremum_isGreatest (β := βᵒᵈ) (a := a) isa' infinity n.succ_pos)
  · rw [simdSumF32_eq, simdSumF32_eq, simdDotProductF32_eq, simdDotProductF32_eq]
    exact ⟨rfl, rfl⟩

end Monitor.Simd
