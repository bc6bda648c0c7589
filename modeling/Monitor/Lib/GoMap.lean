import Mathlib

/-! # Go maps as lists of entries

The order of the entries has no meaning; a loop over a map gets its order elsewhere.
-/

namespace Monitor.GoMap

open List

/-- An order in which a loop goes through maps. -/
structure LoopOrder where
  entries : ∀ {K A : Type}, List (K × A) → List (K × A)
  perm : ∀ {K A : Type} (m : List (K × A)), (entries m).Perm m

def LoopOrder.same : LoopOrder := ⟨fun m => m, fun m => .refl m⟩

variable {K A : Type}

variable {m : List (K × A)} {k : K} {e : K × A}

theorem LoopOrder.mem_entries (order : LoopOrder) : e ∈ order.entries m ↔ e ∈ m :=
  (order.perm m).mem_iff

def keysOf (m : List (K × A)) : List K := m.map (·.1)

variable {a : A}

theorem mem_keysOf (mem : (k, a) ∈ m) : k ∈ keysOf m :=
  mem_map.mpr ⟨(k, a), mem, rfl⟩

theorem mem_keysOf_iff : k ∈ keysOf m ↔ ∃ a, (k, a) ∈ m := by
  simp [keysOf]

variable [DecidableEq K]

def get (k : K) (m : List (K × A)) : Option A := (m.find? (·.1 = k)).map (·.2)

def set (k : K) (a : A) : List (K × A) → List (K × A)
  | [] => [(k, a)]
  | (k', a') :: m => if k' = k then (k, a) :: m else (k', a') :: set k a m

def erase (k : K) (m : List (K × A)) : List (K × A) := m.filter (·.1 ≠ k)

theorem get_cons (k : K) (e : K × A) (m : List (K × A)) :
    get k (e :: m) = if e.1 = k then some e.2 else get k m := by
  simp only [get, find?_cons]
  split <;> simp_all

theorem get_set (k l : K) (a : A) (m : List (K × A)) :
    get k (set l a m) = if l = k then some a else get k m := by
  induction m with
  | nil => exact get_cons k (l, a) []
  | cons e m ih =>
    obtain ⟨k', a'⟩ := e
    rw [set]
    by_cases same : k' = l
    · subst same
      rw [if_pos rfl, get_cons, get_cons]
      split <;> rfl
    · rw [if_neg same, get_cons, get_cons, ih]
      by_cases found : k' = k
      · subst found
        simp only [if_neg (Ne.symm same)]
      · simp only [if_neg found]

theorem get_erase (k l : K) (m : List (K × A)) :
    get k (erase l m) = if l = k then none else get k m := by
  induction m with
  | nil => simp [get, erase]
  | cons e m ih =>
    by_cases same : e.1 = l
    · have gone : erase l (e :: m) = erase l m := by simp [erase, same]
      rw [gone, ih, get_cons, same]
      split <;> rfl
    · have kept : erase l (e :: m) = e :: erase l m := by simp [erase, same]
      rw [kept, get_cons, get_cons, ih]
      by_cases found : e.1 = k
      · rw [← found, if_pos rfl, if_neg (Ne.symm same)]
        simp
      · simp only [if_neg found]

theorem mem_of_get (found : get k m = some a) : (k, a) ∈ m := by
  obtain ⟨e, at_, rfl⟩ := Option.map_eq_some_iff.mp found
  obtain rfl : e.1 = k := by simpa using find?_some at_
  exact mem_of_find?_eq_some at_

theorem get_of_mem (nodup : (keysOf m).Nodup) (mem : (k, a) ∈ m) : get k m = some a := by
  induction m with
  | nil => cases mem
  | cons e m ih =>
    obtain ⟨fresh, nodup⟩ := nodup_cons.mp nodup
    rw [get_cons]
    rcases mem_cons.mp mem with rfl | later
    · exact if_pos rfl
    · have other : e.1 ≠ k := by
        rintro rfl
        exact fresh (mem_keysOf later)
      rw [if_neg other, ih nodup later]

theorem mem_erase {l : K} : e ∈ erase l m ↔ e ∈ m ∧ e.1 ≠ l := by
  simp [erase]

theorem mem_set (nodup : (keysOf m).Nodup) (l : K) (a : A) (e : K × A) :
    e ∈ set l a m ↔ e = (l, a) ∨ e ∈ m ∧ e.1 ≠ l := by
  induction m with
  | nil => simp [set]
  | cons first m ih =>
    obtain ⟨k, b⟩ := first
    obtain ⟨fresh, nodup⟩ := nodup_cons.mp nodup
    rw [set]
    split
    · rename_i same
      subst same
      simp only [mem_cons]
      constructor
      · rintro (rfl | later)
        · exact .inl rfl
        · exact .inr ⟨.inr later, fun same => fresh (same ▸ mem_keysOf later)⟩
      · rintro (rfl | ⟨rfl | later, other⟩)
        · exact .inl rfl
        · exact absurd rfl other
        · exact .inr later
    · rename_i other
      rw [mem_cons, ih nodup, mem_cons]
      constructor
      · rintro (rfl | rfl | ⟨later, ne⟩)
        · exact .inr ⟨.inl rfl, other⟩
        · exact .inl rfl
        · exact .inr ⟨.inr later, ne⟩
      · rintro (rfl | ⟨rfl | later, ne⟩)
        · exact .inr (.inl rfl)
        · exact .inl rfl
        · exact .inr (.inr ⟨later, ne⟩)

theorem mem_of_mem_set {l : K} (mem : e ∈ set l a m) : e = (l, a) ∨ e ∈ m := by
  induction m with
  | nil => exact .inl (mem_singleton.mp mem)
  | cons first m ih =>
    rw [set] at mem
    split at mem
    · exact (mem_cons.mp mem).imp_right (mem_cons_of_mem _)
    · rcases mem_cons.mp mem with rfl | later
      · exact .inr mem_cons_self
      · exact (ih later).imp_right (mem_cons_of_mem _)

theorem keysOf_set (l : K) (a : A) (m : List (K × A)) :
    keysOf (set l a m) = if l ∈ keysOf m then keysOf m else keysOf m ++ [l] := by
  induction m with
  | nil => rfl
  | cons first m ih =>
    rw [set]
    split
    · rename_i same
      simp [keysOf, same]
    · rename_i other
      show first.1 :: keysOf (set l a m) = if l ∈ first.1 :: keysOf m then _ else first.1 :: keysOf m ++ [l]
      simp only [ih, mem_cons, Ne.symm other, false_or]
      split <;> rfl

omit [DecidableEq K] in
theorem keysOf_filter_nodup (nodup : (keysOf m).Nodup) (p : K × A → Bool) : (keysOf (m.filter p)).Nodup :=
  nodup.sublist (filter_sublist.map _)

theorem get_filter (nodup : (keysOf m).Nodup) (p : K × A → Bool) :
    get k (m.filter p) = some a ↔ get k m = some a ∧ p (k, a) := by
  constructor
  · intro found
    obtain ⟨mem, passed⟩ := mem_filter.mp (mem_of_get found)
    exact ⟨get_of_mem nodup mem, passed⟩
  · intro found
    exact get_of_mem (keysOf_filter_nodup nodup p) (mem_filter.mpr ⟨mem_of_get found.1, found.2⟩)

theorem keysOf_set_nodup (nodup : (keysOf m).Nodup) (l : K) (a : A) : (keysOf (set l a m)).Nodup := by
  induction m with
  | nil => exact nodup_singleton l
  | cons e m ih =>
    obtain ⟨k, b⟩ := e
    obtain ⟨fresh, nodup⟩ := nodup_cons.mp nodup
    unfold set
    split
    · rename_i same
      exact nodup_cons.mpr ⟨same ▸ fresh, nodup⟩
    · rename_i other
      refine nodup_cons.mpr ⟨fun mem => ?_, ih nodup⟩
      obtain ⟨c, mem⟩ := mem_keysOf_iff.mp mem
      cases (mem_set nodup l a (k, c)).mp mem with
      | inl same => exact other (congrArg Prod.fst same)
      | inr old => exact fresh (mem_keysOf old.1)

section Length

variable {m : List (K × A)} {k : K}

theorem get_isSome_iff : (get k m).isSome ↔ k ∈ keysOf m := by
  unfold get keysOf
  rw [Option.isSome_map, find?_isSome, mem_map]
  simp only [decide_eq_true_eq]

theorem mem_keysOf_set (l : K) (a : A) : k ∈ keysOf (set l a m) ↔ k = l ∨ k ∈ keysOf m := by
  rw [← get_isSome_iff, ← get_isSome_iff, get_set]
  split
  · rename_i same
    exact iff_of_true rfl (.inl same.symm)
  · rename_i other
    exact (or_iff_right (Ne.symm other)).symm

theorem mem_keysOf_erase (l : K) : k ∈ keysOf (erase l m) ↔ k ≠ l ∧ k ∈ keysOf m := by
  rw [← get_isSome_iff, ← get_isSome_iff, get_erase]
  split
  · rename_i same
    exact iff_of_false nofun fun both => both.1 same.symm
  · rename_i other
    exact (and_iff_right (Ne.symm other)).symm

theorem length_set_of_mem (a : A) (taken : k ∈ keysOf m) : (set k a m).length = m.length := by
  induction m with
  | nil => cases taken
  | cons e m ih =>
    unfold set
    split
    · rfl
    · rename_i other
      rw [length_cons, length_cons, ih]
      exact (mem_cons.mp taken).resolve_left (Ne.symm other)

theorem length_set_of_not_mem (a : A) (fresh : k ∉ keysOf m) : (set k a m).length = m.length + 1 := by
  induction m with
  | nil => rfl
  | cons e m ih =>
    have other : e.1 ≠ k := fun same => fresh (mem_cons.mpr (.inl same.symm))
    have later : k ∉ keysOf m := fun mem => fresh (mem_cons_of_mem _ mem)
    unfold set
    rw [if_neg other, length_cons, length_cons, ih later]

theorem length_erase (nodup : (keysOf m).Nodup) (mem : k ∈ keysOf m) :
    (erase k m).length + 1 = m.length := by
  induction m with
  | nil => cases mem
  | cons e m ih =>
    obtain ⟨fresh, nodup⟩ := nodup_cons.mp nodup
    by_cases same : e.1 = k
    · have all : ∀ e' ∈ m, e'.1 ≠ k := by
        intro e' later here
        refine fresh (mem_map.mpr ⟨e', later, ?_⟩)
        exact here.trans same.symm
      have rest : erase k m = m := filter_eq_self.mpr (by simpa using all)
      have gone : erase k (e :: m) = erase k m := by simp [erase, same]
      rw [gone, rest, length_cons]
    · have kept : erase k (e :: m) = e :: erase k m := by simp [erase, same]
      rw [kept, length_cons, length_cons, ih nodup]
      exact (mem_cons.mp mem).resolve_left (Ne.symm same)

def eraseAll (ks : List K) (m : List (K × A)) : List (K × A) := ks.foldl (fun m k => erase k m) m

theorem eraseAll_filter (ks : List K) (p : K × A → Bool) (m : List (K × A)) :
    (eraseAll ks m).filter p = eraseAll ks (m.filter p) := by
  induction ks generalizing m with
  | nil => rfl
  | cons k ks ih =>
    have swap : erase k (m.filter p) = (erase k m).filter p := filter_comm ..
    exact (ih (erase k m)).trans (congrArg (eraseAll ks) swap.symm)

theorem length_eraseAll {ks : List K} (distinct : ks.Nodup) (members : ∀ k ∈ ks, k ∈ keysOf m)
    (nodup : (keysOf m).Nodup) : (eraseAll ks m).length + ks.length = m.length := by
  induction ks generalizing m with
  | nil => rfl
  | cons k ks ih =>
    obtain ⟨apart, distinct⟩ := nodup_cons.mp distinct
    have first := length_erase nodup (members k mem_cons_self)
    have rest : ∀ l ∈ ks, l ∈ keysOf (erase k m) := by
      intro l later
      refine (mem_keysOf_erase k).mpr ⟨?_, members l (mem_cons_of_mem _ later)⟩
      intro same
      exact apart (same ▸ later)
    have later := ih distinct rest (keysOf_filter_nodup nodup _)
    rw [length_cons, ← first, ← later]
    rfl

end Length

end Monitor.GoMap
