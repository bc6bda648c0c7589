import Mathlib

/-! # Go strings

A Go string is a sequence of bytes. This module has the few operations of the
standard library that the models use, with the behaviour its documentation
gives them.
-/

namespace Monitor.GoText

open List

abbrev GoString := List UInt8

def ascii (s : String) : GoString := s.toList.map fun c => UInt8.ofNat c.toNat

def utf8 (s : String) : GoString := s.toUTF8.toList

def digit (d : Nat) : UInt8 := UInt8.ofNat (48 + d)

def natDigits (n : Nat) : GoString :=
  if n = 0 then [digit 0] else ((Nat.digits 10 n).map digit).reverse

/-- `strconv.Itoa`, and `fmt.Sprintf` with `%d`. -/
def itoa (z : Int) : GoString :=
  if z < 0 then 45 :: natDigits z.natAbs else natDigits z.natAbs

def isDigit (c : UInt8) : Bool := decide (48 ≤ c ∧ c ≤ 57)

/-- A non-empty run of decimal digits. -/
def parseNat (s : GoString) : Option Nat :=
  if s.isEmpty then
    none
  else
    s.foldlM (fun n c => if isDigit c then some (n * 10 + (c.toNat - 48)) else none) 0

/-- `strconv.ParseInt` in base 10 with 64 bits. -/
def parseInt64 (s : GoString) : Option Int :=
  match s with
  | 45 :: rest => (parseNat rest).bind fun n => if n ≤ 2 ^ 63 then some (-n) else none
  | 43 :: rest => (parseNat rest).bind fun n => if n < 2 ^ 63 then some n else none
  | _ => (parseNat s).bind fun n => if n < 2 ^ 63 then some n else none

def wrap64 (z : Int) : Int := (z + 2 ^ 63) % 2 ^ 64 - 2 ^ 63

theorem wrap64_range (z : Int) : -2 ^ 63 ≤ wrap64 z ∧ wrap64 z < 2 ^ 63 := by
  unfold wrap64
  omega

theorem wrap64_add (y z : Int) : wrap64 (wrap64 y + z) = wrap64 (y + z) := by
  unfold wrap64
  omega

def before : GoString → GoString → Bool
  | _, [] => false
  | [], _ :: _ => true
  | a :: as, b :: bs => decide (a < b) || (a == b && before as bs)

section Order

theorem before_irrefl (s : GoString) : before s s = false := by
  induction s with
  | nil => rfl
  | cons a s ih => simp [before, ih]

theorem before_trans : ∀ {s t u : GoString}, before s t = true → before t u = true →
    before s u = true
  | _, [], _, first, _ => by simp [before] at first
  | _, _ :: _, [], _, second => by simp [before] at second
  | [], _ :: _, _ :: _, _, _ => rfl
  | a :: s, b :: t, c :: u, first, second => by
      simp only [before, Bool.or_eq_true, decide_eq_true_eq, Bool.and_eq_true, beq_iff_eq]
        at first second ⊢
      rcases first with less | ⟨rfl, rest⟩
      · rcases second with less' | ⟨rfl, _⟩
        · exact .inl (UInt8.lt_trans less less')
        · exact .inl less
      · rcases second with less' | ⟨rfl, rest'⟩
        · exact .inl less'
        · exact .inr ⟨rfl, before_trans rest rest'⟩

theorem before_of_not : ∀ {s t : GoString}, before s t ≠ true → s ≠ t → before t s = true
  | [], [], _, other => absurd rfl other
  | [], _ :: _, not, _ => absurd rfl not
  | _ :: _, [], _, _ => rfl
  | a :: s, b :: t, not, other => by
      simp only [before, ne_eq, Bool.or_eq_true, decide_eq_true_eq, Bool.and_eq_true, beq_iff_eq,
        not_or, not_and] at not ⊢
      by_cases same : a = b
      · subst same
        exact .inr ⟨rfl, before_of_not (not.2 rfl) fun equal => other (by rw [equal])⟩
      · exact .inl (UInt8.lt_of_le_of_ne (UInt8.not_lt.mp not.1) (Ne.symm same))

end Order

section Decimal

theorem natDigits_of_lt {n : Nat} (small : n < 10) : natDigits n = [digit n] := by
  simp only [natDigits]
  split
  · rename_i zero
    rw [zero]
  · rename_i pos
    rw [Nat.digits_of_lt 10 n pos small]
    rfl

theorem natDigits_step {n : Nat} (large : 10 ≤ n) :
    natDigits n = natDigits (n / 10) ++ [digit (n % 10)] := by
  have high : n / 10 ≠ 0 := by omega
  rw [natDigits, if_neg (by omega), Nat.digits_def' (by decide) (by omega), natDigits, if_neg high,
    map_cons, reverse_cons]

theorem natDigits_induction {P : Nat → GoString → Prop} (single : ∀ n < 10, P n [digit n])
    (append : ∀ n, 10 ≤ n → P (n / 10) (natDigits (n / 10)) →
      P n (natDigits (n / 10) ++ [digit (n % 10)])) (n : Nat) : P n (natDigits n) := by
  induction n using Nat.strong_induction_on with
  | _ n ih =>
    by_cases small : n < 10
    · rw [natDigits_of_lt small]
      exact single n small
    · rw [natDigits_step (by omega)]
      exact append n (by omega) (ih (n / 10) (by omega))

theorem digit_spec : ∀ d < 10, isDigit (digit d) = true ∧ (digit d).toNat - 48 = d := by
  decide

theorem isDigit_of_mem_natDigits {n : Nat} {c : UInt8} (mem : c ∈ natDigits n) :
    isDigit c = true := by
  revert mem
  refine natDigits_induction (P := fun _ s => c ∈ s → isDigit c = true) ?_ ?_ n
  · intro d small mem
    rw [mem_singleton.mp mem]
    exact (digit_spec d small).1
  · intro m _ ih mem
    rcases mem_append.mp mem with early | last
    · exact ih early
    · rw [mem_singleton.mp last]
      exact (digit_spec _ (Nat.mod_lt _ (by decide))).1

theorem natDigits_head (n : Nat) :
    ∃ c more, natDigits n = c :: more ∧ (c = 48 → natDigits n = [48]) := by
  refine natDigits_induction
    (P := fun n s => ∃ c more, s = c :: more ∧ (c = 48 → n = 0 ∧ s = [48])) ?_ ?_ n |>.imp ?_
  · intro d small
    refine ⟨digit d, [], rfl, ?_⟩
    revert d
    decide
  · rintro m large ⟨c, more, shape, zero⟩
    refine ⟨c, more ++ [digit (m % 10)], by rw [shape]; rfl, ?_⟩
    intro isZero
    have := (zero isZero).1
    omega
  · rintro c ⟨more, shape, zero⟩
    exact ⟨more, shape, fun isZero => (zero isZero).2⟩

theorem natDigits_ne_nil (n : Nat) : natDigits n ≠ [] := by
  obtain ⟨c, more, shape, _⟩ := natDigits_head n
  rw [shape]
  exact cons_ne_nil c more

theorem parseNat_natDigits (n : Nat) : parseNat (natDigits n) = some n := by
  have folded : (natDigits n).foldlM
      (fun n c => if isDigit c then some (n * 10 + (c.toNat - 48)) else none) 0 = some n := by
    refine natDigits_induction (P := fun n s => s.foldlM
      (fun n c => if isDigit c then some (n * 10 + (c.toNat - 48)) else none) 0 = some n) ?_ ?_ n
    · intro d small
      obtain ⟨isDigit_, value⟩ := digit_spec d small
      simp only [foldlM_cons, foldlM_nil, if_pos isDigit_, value]
      simp
    · intro m _ ih
      obtain ⟨isDigit_, value⟩ := digit_spec (m % 10) (Nat.mod_lt _ (by decide))
      rw [foldlM_append, ih]
      simp only [foldlM_cons, foldlM_nil, if_pos isDigit_, value]
      simp
      omega
  rw [parseNat, if_neg (by simpa using natDigits_ne_nil n), folded]

variable {z : Int}

theorem parseInt64_itoa (low : -2 ^ 63 ≤ z) (high : z < 2 ^ 63) : parseInt64 (itoa z) = some z := by
  by_cases negative : z < 0
  · rw [itoa, if_pos negative, parseInt64, parseNat_natDigits, Option.bind_some, if_pos (by omega)]
    congr 1
    omega
  · obtain ⟨c, more, shape, _⟩ := natDigits_head z.natAbs
    have isDigit_ : isDigit c = true :=
      isDigit_of_mem_natDigits (n := z.natAbs) (by rw [shape]; exact mem_cons_self)
    have sign : c ≠ 45 ∧ c ≠ 43 := by
      constructor
      · rintro rfl
        cases isDigit_
      · rintro rfl
        cases isDigit_
    have value := parseNat_natDigits z.natAbs
    rw [shape] at value
    rw [itoa, if_neg negative, shape, parseInt64]
    · rw [value, Option.bind_some, if_pos (by omega)]
      congr 1
      omega
    · rintro rest same
      cases same
      exact sign.1 rfl
    · rintro rest same
      cases same
      exact sign.2 rfl

theorem mem_itoa {c : UInt8} (mem : c ∈ itoa z) : c = 45 ∨ isDigit c = true := by
  rw [itoa] at mem
  split at mem
  · exact (mem_cons.mp mem).imp_right isDigit_of_mem_natDigits
  · exact .inr (isDigit_of_mem_natDigits mem)

theorem itoa_injective {y : Int} (same : itoa y = itoa z) : y = z := by
  have unsigned {m n : Nat} (h : natDigits m = natDigits n) : m = n := by
    rw [← Option.some.injEq, ← parseNat_natDigits, h, parseNat_natDigits]
  have signed {m n : Nat} : (45 : UInt8) :: natDigits m ≠ natDigits n := fun h => by
    have : isDigit 45 = true := isDigit_of_mem_natDigits (n := n) (h ▸ mem_cons_self)
    cases this
  simp only [itoa] at same
  split at same <;> split at same
  · have := unsigned (List.cons.inj same).2
    omega
  · exact absurd same signed
  · exact absurd same.symm signed
  · have := unsigned same
    omega

theorem colon_not_mem_itoa (z : Int) : 58 ∉ itoa z := by
  intro mem
  rcases mem_itoa mem with same | same <;> cases same

theorem dash_not_mem_itoa (nonneg : 0 ≤ z) : 45 ∉ itoa z := by
  intro mem
  rw [itoa, if_neg nonneg.not_gt] at mem
  have digit : isDigit 45 = true := isDigit_of_mem_natDigits mem
  cases digit

theorem append_mark_inj {mark : UInt8} {front front' back back' : GoString} (apart : mark ∉ back)
    (apart' : mark ∉ back') (same : front ++ mark :: back = front' ++ mark :: back') :
    front = front' ∧ back = back' := by
  have short : ∀ {back back' middle : GoString}, mark ∉ back → mark :: back = middle ++ mark :: back' →
      middle = [] := by
    intro back back' middle apart split
    cases middle with
    | nil => rfl
    | cons c middle =>
      refine absurd ?_ apart
      rw [(List.cons.inj split).2]
      exact mem_append_right middle mem_cons_self
  rcases append_eq_append_iff.mp same with ⟨middle, rfl, split⟩ | ⟨middle, rfl, split⟩
  · obtain rfl := short apart split
    exact ⟨(append_nil front).symm, (List.cons.inj split).2⟩
  · obtain rfl := short apart' split
    exact ⟨append_nil front', (List.cons.inj split).2.symm⟩

theorem append_colon_itoa_inj {front front' : GoString} {y : Int}
    (same : front ++ 58 :: itoa y = front' ++ 58 :: itoa z) : front = front' ∧ y = z :=
  (append_mark_inj (colon_not_mem_itoa y) (colon_not_mem_itoa z) same).imp_right itoa_injective

end Decimal

end Monitor.GoText
