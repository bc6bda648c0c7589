import Mathlib

/-! # Successor search on a ring of points

A ring is a sorted list of points of a linear order, possibly with repetitions.
The successor of a position is the first point not below it, or the first point
of all when there is none. `search` is the binary search that finds it.
-/

namespace Monitor.PointRing

open List

/-- Binary search between `i` and `j`, as in the standard library of Go: `fuel` bounds the
    number of halvings. -/
def searchLoop (f : Nat → Bool) : Nat → Nat → Nat → Nat
  | 0, i, _ => i
  | fuel + 1, i, j =>
    if i < j then
      let h := (i + j) / 2
      if !f h then searchLoop f fuel (h + 1) j else searchLoop f fuel i h
    else
      i

/-- The smallest index in `[0, n)` at which `f` holds, or `n`. -/
def search (n : Nat) (f : Nat → Bool) : Nat := searchLoop f n 0 n

-- Below `i` nothing holds and from `j` on everything does; the gap shrinks to the answer.
theorem searchLoop_spec {f : Nat → Bool} {n : Nat}
    (mono : ∀ a b, a ≤ b → b < n → f a = true → f b = true) : ∀ fuel i j, j ≤ i + fuel → i ≤ j → j ≤ n →
      (∀ k < i, f k = false) → (∀ k, j ≤ k → k < n → f k = true) →
      searchLoop f fuel i j ≤ n ∧ (∀ k < searchLoop f fuel i j, f k = false) ∧
        (∀ k, searchLoop f fuel i j ≤ k → k < n → f k = true) := by
  intro fuel
  induction fuel with
  | zero =>
    intro i j gap le bound below above
    obtain rfl : i = j := by omega
    exact ⟨bound, below, above⟩
  | succ fuel ih =>
    intro i j gap le bound below above
    simp only [searchLoop]
    split
    · cases h : f ((i + j) / 2) with
      | false =>
        refine ih _ _ (by omega) (by omega) bound ?_ above
        intro k small
        by_contra holds
        have := mono k ((i + j) / 2) (by omega) (by omega) (Bool.eq_true_of_not_eq_false holds)
        rw [h] at this
        cases this
      | true =>
        refine ih _ _ (by omega) (by omega) (by omega) below ?_
        intro k large small
        exact mono _ k large small h
    · obtain rfl : i = j := by omega
      exact ⟨bound, below, above⟩

variable {P : Type} [LinearOrder P]

/-- The first point not below `h`, or the first point. -/
def successor (ring : List P) (h : P) : Option P :=
  (ring.find? (fun p => decide (h ≤ p))).or ring.head?

/-- The test a search over the ring makes at index `i`. -/
def notBelow (ring : List P) (h : P) (i : Nat) : Bool :=
  match ring[i]? with
  | some p => decide (h ≤ p)
  | none => false

variable {ring : List P} {p : P}

theorem search_findIdx (sorted : ring.Pairwise (· ≤ ·)) (h : P) :
    search ring.length (notBelow ring h) = ring.findIdx (fun p => decide (h ≤ p)) := by
  have at_ : ∀ i (inside : i < ring.length), notBelow ring h i = decide (h ≤ ring[i]) := by
    intro i inside
    simp only [notBelow, getElem?_eq_getElem inside]
  have mono : ∀ a b, a ≤ b → b < ring.length → notBelow ring h a = true →
      notBelow ring h b = true := by
    intro a b le inside holds
    rw [at_ a (by omega), decide_eq_true_eq] at holds
    rw [at_ b inside, decide_eq_true_eq]
    rcases Nat.eq_or_lt_of_le le with rfl | lt
    · exact holds
    · exact holds.trans (pairwise_iff_getElem.mp sorted a b (by omega) inside lt)
  obtain ⟨bound, below, above⟩ := searchLoop_spec mono ring.length 0 ring.length (by omega)
    (by omega) le_rfl (by omega) (by omega)
  change search ring.length (notBelow ring h) ≤ _ at bound
  change ∀ k < search ring.length (notBelow ring h), _ at below
  rcases Nat.eq_or_lt_of_le bound with last | inside
  · rw [last] at below ⊢
    symm
    rw [findIdx_eq_length]
    intro p mem
    obtain ⟨i, inside, rfl⟩ := getElem_of_mem mem
    rw [← at_ i inside]
    exact below i inside
  · symm
    rw [findIdx_eq inside]
    refine ⟨?_, ?_⟩
    · rw [← at_ _ inside]
      exact above _ le_rfl inside
    · intro j small
      rw [← at_ j (by omega)]
      exact below j small

theorem getElem?_search {ring : List P} (sorted : ring.Pairwise (· ≤ ·)) (h : P) :
    ring[if search ring.length (notBelow ring h) = ring.length then 0
      else search ring.length (notBelow ring h)]? = successor ring h := by
  rw [search_findIdx sorted, successor, find?_eq_getElem?_findIdx]
  split
  · rename_i none_
    rw [none_, getElem?_eq_none le_rfl, Option.none_or, head?_eq_getElem?]
  · rename_i found
    have inside : ring.findIdx (fun p => decide (h ≤ p)) < ring.length :=
      Nat.lt_of_le_of_ne findIdx_le_length found
    rw [getElem?_eq_getElem inside, Option.some_or]

/-- `p` is the first of `points` at or behind `h`, going round. -/
def IsSuccessor (points : Set P) (h p : P) : Prop :=
  p ∈ points ∧ ((h ≤ p ∧ ∀ q ∈ points, h ≤ q → p ≤ q) ∨ ((∀ q ∈ points, q < h) ∧ ∀ q ∈ points, p ≤ q))

theorem IsSuccessor.unique {points : Set P} {h q : P} (hp : IsSuccessor points h p)
    (hq : IsSuccessor points h q) : p = q := by
  obtain ⟨memP, ⟨above, least⟩ | ⟨below, least⟩⟩ := hp <;>
    obtain ⟨memQ, ⟨above', least'⟩ | ⟨below', least'⟩⟩ := hq
  · exact le_antisymm (least q memQ above') (least' p memP above)
  · exact absurd (below' p memP) (not_lt.mpr above)
  · exact absurd (below q memQ) (not_lt.mpr above')
  · exact le_antisymm (least q memQ) (least' p memP)

theorem IsSuccessor.self {points : Set P} (mem : p ∈ points) : IsSuccessor points p p :=
  ⟨mem, .inl ⟨le_rfl, fun _ _ le => le⟩⟩

theorem IsSuccessor.restrict {points fewer : Set P} {h : P} (hp : IsSuccessor points h p)
    (subset : fewer ⊆ points) (q : P) : IsSuccessor fewer h q ↔ IsSuccessor fewer p q := by
  obtain ⟨_, ⟨above, least⟩ | ⟨below, least⟩⟩ := hp
  · have same : ∀ r ∈ fewer, (h ≤ r ↔ p ≤ r) := fun r mem =>
      ⟨least r (subset mem), above.trans⟩
    refine and_congr_right fun mem => or_congr ?_ ?_
    · exact and_congr (same q mem)
        (forall₂_congr fun r hr => imp_congr_left (same r hr))
    · exact and_congr_left' (forall₂_congr fun r hr => by
        simpa only [not_le] using not_congr (same r hr))
  · constructor
    · rintro ⟨mem, ⟨above, _⟩ | ⟨_, first⟩⟩
      · exact absurd (below q (subset mem)) (not_lt.mpr above)
      · exact ⟨mem, .inl ⟨least q (subset mem), fun r hr _ => first r hr⟩⟩
    · rintro ⟨mem, ⟨_, first⟩ | ⟨lower, _⟩⟩
      · exact ⟨mem, .inr ⟨fun r hr => below r (subset hr),
          fun r hr => first r hr (least r (subset hr))⟩⟩
      · exact absurd (lower q mem) (not_lt.mpr (least q (subset mem)))

theorem successor_sound (sorted : ring.Pairwise (· ≤ ·)) {h : P}
    (found : successor ring h = some p) : IsSuccessor {q | q ∈ ring} h p := by
  rw [successor, Option.or_eq_some_iff] at found
  rcases found with hit | ⟨miss, first⟩
  · obtain ⟨above, before, behind, rfl, lower⟩ := find?_eq_some_iff_append.mp hit
    refine ⟨by simp, .inl ⟨of_decide_eq_true above, ?_⟩⟩
    intro q mem le
    rcases mem_append.mp mem with left | right
    · have := lower q left
      simp only [Bool.not_eq_true', decide_eq_false_iff_not] at this
      exact absurd le this
    · rcases mem_cons.mp right with rfl | right
      · exact le_rfl
      · exact (pairwise_cons.mp (pairwise_append.mp sorted).2.1).1 q right
  · have lower := find?_eq_none.mp miss
    obtain ⟨rest, rfl⟩ := head?_eq_some_iff.mp first
    refine ⟨mem_cons_self, .inr ⟨?_, ?_⟩⟩
    · intro q mem
      simpa only [decide_eq_true_eq, not_le] using lower q mem
    · intro q mem
      rcases mem_cons.mp mem with rfl | right
      · exact le_rfl
      · exact (pairwise_cons.mp sorted).1 q right

theorem successor_isSome (ne : ring ≠ []) (h : P) : ∃ p, successor ring h = some p := by
  cases ring with
  | nil => exact absurd rfl ne
  | cons first rest =>
    refine Option.isSome_iff_exists.mp ?_
    simp [successor]

theorem successor_iff (sorted : ring.Pairwise (· ≤ ·)) {h : P} :
    successor ring h = some p ↔ IsSuccessor {q | q ∈ ring} h p := by
  refine ⟨successor_sound sorted, fun isSuccessor => ?_⟩
  obtain ⟨q, found⟩ := successor_isSome (ne_nil_of_mem isSuccessor.1) h
  rw [found, (successor_sound sorted found).unique isSuccessor]

end Monitor.PointRing
