import Mathlib

/-! # Binary min-heaps over a store

The heap order is a property of the keys at the positions below a size. A `Store` is
any state whose positions can be compared and exchanged; the two sifting loops run on
it, so whatever else a state keeps beside the keys (back pointers, tables) is carried
along by its own exchange. `Inverse` is the matching fact about such a table: it sends
every identifier of a list to its position and nothing else.
-/

namespace Monitor.MinHeap

open List Function Equiv

variable {κ σ H : Type}

def parent (i : Nat) : Nat := (i - 1) / 2

theorem parent_lt {i : Nat} (pos : 0 < i) : parent i < i := by
  simp only [parent]
  omega

section Order

variable [LinearOrder κ] {key key' : Nat → κ} {n m i : Nat}

def Ordered (key : Nat → κ) (n : Nat) : Prop :=
  ∀ c, 0 < c → c < n → key (parent c) ≤ key c

theorem Ordered.root_le (h : Ordered key n) (i : Nat) (lt : i < n) : key 0 ≤ key i := by
  induction i using Nat.strong_induction_on with
  | _ i ih =>
    cases Nat.eq_zero_or_pos i with
    | inl zero => rw [zero]
    | inr pos =>
      have below := parent_lt pos
      exact (ih (parent i) below (by omega)).trans (h i pos lt)

/-- Ordered away from position `i`, whose children are not below its parent either. -/
structure ExceptAt (key : Nat → κ) (n i : Nat) : Prop where
  away : ∀ c, 0 < c → c < n → c ≠ i → parent c ≠ i → key (parent c) ≤ key c
  across : 0 < i → ∀ c, 0 < c → c < n → parent c = i → key (parent i) ≤ key c

theorem Ordered.exceptAt (h : Ordered key n)
    (agree : ∀ c, c < m → c ≠ i → c < n ∧ key' c = key c) : ExceptAt key' m i where
  away := by
    intro c pos lt apart parentApart
    have below := parent_lt pos
    rw [(agree c lt apart).2, (agree (parent c) (by omega) parentApart).2]
    exact h c pos (agree c lt apart).1
  across := by
    intro iPos c pos lt child
    have below := parent_lt pos
    have above := parent_lt iPos
    obtain ⟨cInside, cKey⟩ := agree c lt (by omega)
    rw [cKey, (agree (parent i) (by omega) (by omega)).2]
    calc key (parent i) ≤ key i := h i iPos (by omega)
      _ = key (parent c) := by rw [child]
      _ ≤ key c := h c pos cInside

structure UpReady (key : Nat → κ) (n i : Nat) : Prop extends ExceptAt key n i where
  below : ∀ c, 0 < c → c < n → parent c = i → key i ≤ key c

structure DownReady (key : Nat → κ) (n i : Nat) : Prop extends ExceptAt key n i where
  above : 0 < i → key (parent i) ≤ key i

theorem Ordered.upReady (h : Ordered key n) (i : Nat) : UpReady key n i where
  toExceptAt := h.exceptAt (fun _ lt _ => ⟨lt, rfl⟩)
  below := by
    intro c pos lt child
    simpa only [child] using h c pos lt

theorem UpReady.ordered (h : UpReady key n i) (stop : 0 < i → key (parent i) ≤ key i) :
    Ordered key n := by
  intro c pos lt
  by_cases here : c = i
  · subst here
    exact stop pos
  · by_cases child : parent c = i
    · rw [child]
      exact h.below c pos lt child
    · exact h.away c pos lt here child

theorem DownReady.ordered (h : DownReady key n i)
    (stop : ∀ c, 0 < c → c < n → parent c = i → key i ≤ key c) : Ordered key n :=
  UpReady.ordered ⟨h.toExceptAt, stop⟩ h.above

theorem UpReady.move (h : UpReady key n i) (pos : 0 < i) (lt : i < n)
    (less : key i < key (parent i)) :
    UpReady (fun c => key (swap i (parent i) c)) n (parent i) := by
  have up := parent_lt pos
  -- A child of the parent other than `i` was in order with it.
  have sibling : ∀ c, 0 < c → c < n → c ≠ i → parent c = parent i → key (parent i) ≤ key c := by
    intro c cPos cInside apart child
    have := h.away c cPos cInside apart (by omega)
    rwa [child] at this
  refine ⟨⟨?_, ?_⟩, ?_⟩
  · intro c cPos cInside apart parentApart
    have cOther : c ≠ i := by
      rintro rfl
      exact parentApart rfl
    simp only [swap_apply_of_ne_of_ne cOther apart]
    by_cases child : parent c = i
    · rw [child, swap_apply_left]
      exact h.across pos c cPos cInside child
    · rw [swap_apply_of_ne_of_ne child parentApart]
      exact h.away c cPos cInside cOther child
  · intro upPos c cPos cInside child
    have top := parent_lt upPos
    have cBelow := parent_lt cPos
    have inherited : key (parent (parent i)) ≤ key (parent i) :=
      h.away _ upPos (by omega) (by omega) (by omega)
    simp only [swap_apply_of_ne_of_ne (show parent (parent i) ≠ i by omega)
      (show parent (parent i) ≠ parent i by omega)]
    by_cases here : c = i
    · rw [here, swap_apply_left]
      exact inherited
    · rw [swap_apply_of_ne_of_ne here (by omega)]
      exact inherited.trans (sibling c cPos cInside here child)
  · intro c cPos cInside child
    have cBelow := parent_lt cPos
    simp only [swap_apply_right]
    by_cases here : c = i
    · rw [here, swap_apply_left]
      exact less.le
    · rw [swap_apply_of_ne_of_ne here (by omega)]
      exact less.le.trans (sibling c cPos cInside here child)

theorem DownReady.move (h : DownReady key n i) {c : Nat} (pos : 0 < c) (lt : c < n)
    (child : parent c = i) (less : key c < key i)
    (least : ∀ d, 0 < d → d < n → parent d = i → key c ≤ key d) :
    DownReady (fun d => key (swap i c d)) n c := by
  have up := parent_lt pos
  refine ⟨⟨?_, ?_⟩, ?_⟩
  · intro d dPos dInside apart parentApart
    have dBelow := parent_lt dPos
    by_cases here : d = i
    · subst here
      simp only [swap_apply_left,
        swap_apply_of_ne_of_ne (show parent d ≠ d by omega) parentApart]
      exact h.across dPos c pos lt child
    · simp only [swap_apply_of_ne_of_ne here apart]
      by_cases dChild : parent d = i
      · rw [dChild, swap_apply_left]
        exact least d dPos dInside dChild
      · rw [swap_apply_of_ne_of_ne dChild parentApart]
        exact h.away d dPos dInside here dChild
  · intro _ d dPos dInside dChild
    have dBelow := parent_lt dPos
    rw [child]
    simp only [swap_apply_left,
      swap_apply_of_ne_of_ne (show d ≠ i by omega) (show d ≠ c by omega)]
    have := h.away d dPos dInside (by omega) (by omega)
    rwa [dChild] at this
  · intro _
    rw [child]
    simp only [swap_apply_left, swap_apply_right]
    exact less.le

end Order

structure Store (σ κ : Type) where
  size : σ → Nat
  key : σ → Nat → κ
  swap : σ → Nat → Nat → σ
  size_swap : ∀ s i j, size (swap s i j) = size s
  key_swap : ∀ s i j, i < size s → j < size s → ∀ c, key (swap s i j) c = key s (Equiv.swap i j c)

namespace Store

section Sifting

-- The loops need no more than a comparison; only the order they establish needs an order.
variable [LT κ] [DecidableLT κ] (S : Store σ κ)

/-- Sift position `i` towards the root; `fuel` bounds the number of exchanges. -/
def siftUp : Nat → σ → Nat → σ
  | 0, s, _ => s
  | fuel + 1, s, i =>
    if 0 < i then
      if S.key s i < S.key s (parent i) then
        siftUp fuel (S.swap s i (parent i)) (parent i)
      else
        s
    else
      s

def smaller (s : σ) (c best : Nat) : Nat :=
  if c < S.size s ∧ S.key s c < S.key s best then c else best

/-- The position of the least key among `i` and its children. -/
def smallest (s : σ) (i : Nat) : Nat :=
  S.smaller s (2 * i + 2) (S.smaller s (2 * i + 1) i)

/-- Sift position `i` towards the leaves; `fuel` bounds the number of exchanges. -/
def siftDown : Nat → σ → Nat → σ
  | 0, s, _ => s
  | fuel + 1, s, i =>
    if S.smallest s i ≠ i then
      siftDown fuel (S.swap s i (S.smallest s i)) (S.smallest s i)
    else
      s

theorem smaller_cases (s : σ) (c best : Nat) :
    (S.smaller s c best = c ∧ c < S.size s ∧ S.key s c < S.key s best) ∨
      (S.smaller s c best = best ∧ (c < S.size s → ¬ S.key s c < S.key s best)) := by
  simp only [smaller]
  split
  · rename_i h
    exact .inl ⟨rfl, h⟩
  · rename_i h
    exact .inr ⟨rfl, fun lt less => h ⟨lt, less⟩⟩

theorem smallest_moved {s : σ} {i : Nat} (moved : S.smallest s i ≠ i) :
    i < S.smallest s i ∧ S.smallest s i < S.size s := by
  rcases S.smaller_cases s (2 * i + 2) (S.smaller s (2 * i + 1) i) with
    ⟨right, lt, _⟩ | ⟨kept, _⟩
  · rw [smallest, right]
    omega
  · rw [smallest, kept] at moved ⊢
    rcases S.smaller_cases s (2 * i + 1) i with ⟨left, lt, _⟩ | ⟨same, _⟩
    · omega
    · exact absurd same moved

theorem siftUp_keeps {P : σ → Prop}
    (exchange : ∀ s i j, i < S.size s → j < S.size s → i ≠ j → P s → P (S.swap s i j)) :
    ∀ fuel s i, i < S.size s → P s → P (S.siftUp fuel s i) := by
  intro fuel
  induction fuel with
  | zero => exact fun _ _ _ holds => holds
  | succ fuel ih =>
    intro s i lt holds
    simp only [siftUp]
    split
    · rename_i pos
      have up := parent_lt pos
      split
      · apply ih
        · rw [S.size_swap]
          omega
        · exact exchange s i (parent i) lt (by omega) (by omega) holds
      · exact holds
    · exact holds

theorem siftDown_keeps {P : σ → Prop}
    (exchange : ∀ s i j, i < S.size s → j < S.size s → i ≠ j → P s → P (S.swap s i j)) :
    ∀ fuel s i, P s → P (S.siftDown fuel s i) := by
  intro fuel
  induction fuel with
  | zero => exact fun _ _ holds => holds
  | succ fuel ih =>
    intro s i holds
    simp only [siftDown]
    split
    · rename_i moved
      obtain ⟨below, lt⟩ := S.smallest_moved moved
      exact ih _ _ (exchange s i _ (by omega) lt (by omega) holds)
    · exact holds

theorem size_siftDown (fuel : Nat) (s : σ) (i : Nat) : S.size (S.siftDown fuel s i) = S.size s :=
  S.siftDown_keeps (fun t a b _ _ _ same => (S.size_swap t a b).trans same) fuel s i rfl

section Unnoticed

variable {f : σ → σ} (size : ∀ s, S.size (f s) = S.size s) (key : ∀ s i, S.key (f s) i = S.key s i)
  (swap : ∀ s i j, S.swap (f s) i j = f (S.swap s i j))

include key swap in
theorem siftUp_comm : ∀ fuel s i, S.siftUp fuel (f s) i = f (S.siftUp fuel s i) := by
  intro fuel
  induction fuel with
  | zero => exact fun _ _ => rfl
  | succ fuel ih =>
    intro s i
    simp only [siftUp, key, swap, ih]
    split
    · split <;> rfl
    · rfl

include size key swap in
theorem siftDown_comm : ∀ fuel s i, S.siftDown fuel (f s) i = f (S.siftDown fuel s i) := by
  intro fuel
  induction fuel with
  | zero => exact fun _ _ => rfl
  | succ fuel ih =>
    intro s i
    have smaller_ : ∀ c best, S.smaller (f s) c best = S.smaller s c best := by
      intro c best
      simp only [smaller, size, key]
    have same : S.smallest (f s) i = S.smallest s i := by
      rw [smallest, smallest, smaller_, smaller_]
    simp only [siftDown, same, swap, ih]
    split <;> rfl

end Unnoticed

end Sifting

variable [LinearOrder κ] (S : Store σ κ) {s : σ} {i fuel : Nat}

theorem child_cases {c : Nat} (pos : 0 < c) (child : parent c = i) : c = 2 * i + 1 ∨ c = 2 * i + 2 := by
  simp only [parent] at child
  omega

theorem smallest_cases (s : σ) (i : Nat) : (S.smallest s i = i ∧
        ∀ c, 0 < c → c < S.size s → parent c = i → S.key s i ≤ S.key s c) ∨
      (i < S.smallest s i ∧ S.smallest s i < S.size s ∧ parent (S.smallest s i) = i ∧
        S.key s (S.smallest s i) < S.key s i ∧
        ∀ c, 0 < c → c < S.size s → parent c = i → S.key s (S.smallest s i) ≤ S.key s c) := by
  have left : parent (2 * i + 1) = i := by simp only [parent]; omega
  have right : parent (2 * i + 2) = i := by simp only [parent]; omega
  simp only [smallest]
  rcases S.smaller_cases s (2 * i + 1) i with ⟨eqL, inL, ltL⟩ | ⟨eqL, geL⟩ <;>
    rw [eqL] <;>
    rcases S.smaller_cases s (2 * i + 2) _ with ⟨eqR, inR, ltR⟩ | ⟨eqR, geR⟩ <;>
    rw [eqR]
  · refine .inr ⟨by omega, inR, right, ltR.trans ltL, ?_⟩
    intro c pos lt child
    rcases child_cases pos child with rfl | rfl
    · exact ltR.le
    · exact le_rfl
  · refine .inr ⟨by omega, inL, left, ltL, ?_⟩
    intro c pos lt child
    rcases child_cases pos child with rfl | rfl
    · exact le_rfl
    · exact not_lt.mp (geR lt)
  · refine .inr ⟨by omega, inR, right, ltR, ?_⟩
    intro c pos lt child
    rcases child_cases pos child with rfl | rfl
    · exact ltR.le.trans (not_lt.mp (geL lt))
    · exact le_rfl
  · refine .inl ⟨rfl, ?_⟩
    intro c pos lt child
    rcases child_cases pos child with rfl | rfl
    · exact not_lt.mp (geL lt)
    · exact not_lt.mp (geR lt)

theorem siftUp_ordered : ∀ fuel s i, i ≤ fuel → i < S.size s → UpReady (S.key s) (S.size s) i →
      Ordered (S.key (S.siftUp fuel s i)) (S.size (S.siftUp fuel s i)) := by
  intro fuel
  induction fuel with
  | zero =>
    intro s i enough _ ready
    exact ready.ordered (fun pos => absurd pos (by omega))
  | succ fuel ih =>
    intro s i enough lt ready
    simp only [siftUp]
    split
    · rename_i pos
      have up := parent_lt pos
      split
      · rename_i less
        apply ih
        · omega
        · rw [S.size_swap]
          omega
        · rw [S.size_swap, funext (S.key_swap s i (parent i) lt (by omega))]
          exact ready.move pos lt less
      · rename_i stop
        exact ready.ordered (fun _ => not_lt.mp stop)
    · rename_i root
      exact ready.ordered (fun pos => absurd pos root)

theorem siftDown_ordered : ∀ fuel s i, S.size s ≤ i + fuel → DownReady (S.key s) (S.size s) i →
      Ordered (S.key (S.siftDown fuel s i)) (S.size (S.siftDown fuel s i)) := by
  intro fuel
  induction fuel with
  | zero =>
    intro s i enough ready
    refine ready.ordered ?_
    intro c pos lt child
    have := parent_lt pos
    omega
  | succ fuel ih =>
    intro s i enough ready
    simp only [siftDown]
    rcases S.smallest_cases s i with ⟨same, least⟩ | ⟨below, lt, child, less, least⟩
    · rw [if_neg (not_not.mpr same)]
      exact ready.ordered least
    · rw [if_pos (by omega)]
      apply ih
      · rw [S.size_swap]
        omega
      · rw [S.size_swap, funext (S.key_swap s i _ (by omega) lt)]
        exact ready.move (by omega) lt child less least

theorem siftDown_of_least (fuel : Nat)
    (least : ∀ c, 0 < c → c < S.size s → parent c = i → S.key s i ≤ S.key s c) :
    S.siftDown fuel s i = s := by
  cases fuel with
  | zero => rfl
  | succ fuel =>
    rcases S.smallest_cases s i with ⟨same, _⟩ | ⟨below, lt, child, less, _⟩
    · simp only [siftDown, same, ne_eq, not_true_eq_false, if_false]
    · exact absurd (least _ (by omega) lt child) (not_le.mpr less)

theorem siftUp_siftDown_ordered {up down : Nat} (enoughUp : i ≤ up)
    (enoughDown : S.size s ≤ i + down) (lt : i < S.size s) (h : ExceptAt (S.key s) (S.size s) i) :
    Ordered (S.key (S.siftUp up (S.siftDown down s i) i))
      (S.size (S.siftUp up (S.siftDown down s i) i)) := by
  by_cases low : 0 < i ∧ S.key s i < S.key s (parent i)
  · have least : ∀ c, 0 < c → c < S.size s → parent c = i → S.key s i ≤ S.key s c :=
      fun c pos cInside child => low.2.le.trans (h.across low.1 c pos cInside child)
    rw [S.siftDown_of_least down least]
    exact S.siftUp_ordered up s i enoughUp lt ⟨h, least⟩
  · have above : 0 < i → S.key s (parent i) ≤ S.key s i :=
      fun pos => not_lt.mp fun less => low ⟨pos, less⟩
    have sunk := S.siftDown_ordered down s i enoughDown ⟨h, above⟩
    exact S.siftUp_ordered up _ i enoughUp (by rwa [S.size_siftDown]) (sunk.upReady i)

end Store

section Inverse

/-- The table `pos` is the inverse of the list: it knows each identifier's position. -/
def Inverse (ids : List H) (pos : H → Option Nat) : Prop :=
  ∀ h (i : Nat), pos h = some i ↔ ids[i]? = some h

variable {ids : List H} {pos : H → Option Nat}

theorem Inverse.unique (inv : Inverse ids pos) {h : H} {i j : Nat} (hi : ids[i]? = some h)
    (hj : ids[j]? = some h) : i = j :=
  Option.some.inj (((inv h i).mpr hi).symm.trans ((inv h j).mpr hj))

theorem Inverse.nodup (inv : Inverse ids pos) : ids.Nodup := by
  rw [nodup_iff_injective_getElem]
  intro a b same
  have atA : ids[a.val]? = some ids[a.val] := getElem?_eq_getElem a.isLt
  have atB : ids[b.val]? = some ids[b.val] := getElem?_eq_getElem b.isLt
  exact Fin.ext (inv.unique (atA.trans (congrArg some same)) atB)

theorem Inverse.not_mem (inv : Inverse ids pos) {h : H} : pos h = none ↔ h ∉ ids := by
  rw [mem_iff_getElem?, Option.eq_none_iff_forall_ne_some]
  simp only [ne_eq, inv h, not_exists]

variable [DecidableEq H]

theorem Inverse.append (inv : Inverse ids pos) {h : H} (fresh : pos h = none) :
    Inverse (ids ++ [h]) (update pos h (some ids.length)) := by
  intro g i
  have known := inv g i
  simp only [getElem?_append, update_apply]
  grind

theorem Inverse.replace (inv : Inverse ids pos) {h old : H} {i : Nat}
    (here : ids[i]? = some old) (fresh : pos h = none) :
    Inverse (ids.set i h) (update (update pos old none) h (some i)) := by
  intro g j
  have known := inv g j
  have only : ids[j]? = some old → j = i := fun found => inv.unique found here
  grind

theorem Inverse.promoteLast (inv : Inverse ids pos) {first last : H} (long : 1 < ids.length)
    (front : ids[0]? = some first) (back : ids.getLast? = some last) : Inverse (ids.set 0 last).dropLast
      (update (update pos first none) last (some 0)) := by
  rw [getLast?_eq_getElem?] at back
  intro g j
  have known := inv g j
  have onlyFirst : ids[j]? = some first → j = 0 := fun found => inv.unique found front
  have onlyLast : ids[j]? = some last → j = ids.length - 1 := fun found => inv.unique found back
  simp only [getElem?_dropLast, getElem?_set, length_set, update_apply]
  grind

theorem Inverse.exchange (inv : Inverse ids pos) {a b : H} {i j : Nat} (apart : i ≠ j)
    (hi : ids[i]? = some a) (hj : ids[j]? = some b) : Inverse ((ids.set i b).set j a)
      (update (update pos b (some i)) a (some j)) := by
  have posA := (inv a i).mpr hi
  have posB := (inv b j).mpr hj
  intro g c
  have known := inv g c
  simp only [getElem?_set, length_set, update_apply]
  grind

end Inverse

end Monitor.MinHeap
