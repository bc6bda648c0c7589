import Monitor.Lib.Json

/-! # Valid UTF-8

A string is valid when it is the encoding of a list of Unicode scalar values. The
scanners recognise a well-formed sequence by its bytes; the two lemmas on
`runeLength` say that these are exactly the encodings beyond ASCII.
-/

namespace Monitor.Utf8

open GoText Json List UInt8

/-- A code point that is not half of a surrogate pair. -/
def Scalar (r : Nat) : Prop := r < 0xD800 ∨ 0xE000 ≤ r ∧ r < 0x110000

instance (r : Nat) : Decidable (Scalar r) := inferInstanceAs (Decidable (_ ∨ _))

def encode (runes : List Nat) : GoString := runes.flatMap encodeRune

def Valid (s : GoString) : Prop := ∃ runes, (∀ r ∈ runes, Scalar r) ∧ encode runes = s

theorem valid_nil : Valid [] := ⟨[], by simp, rfl⟩

variable {s : GoString} {r : Nat} {runes : List Nat}

theorem Valid.append {t : GoString} (first : Valid s) (second : Valid t) : Valid (s ++ t) := by
  obtain ⟨runes, scalars, rfl⟩ := first
  obtain ⟨runes', scalars', rfl⟩ := second
  refine ⟨runes ++ runes', fun r mem => ?_, flatMap_append⟩
  exact (mem_append.mp mem).elim (scalars r) (scalars' r)

theorem valid_encodeRune (scalar : Scalar r) : Valid (encodeRune r) :=
  ⟨[r], by simpa using scalar, by simp [encode]⟩

theorem encodeRune_ascii {c : UInt8} (small : c < 0x80) : encodeRune c.toNat = [c] := by
  have bound : c.toNat < 0x80 := small
  rw [encodeRune, if_pos bound, UInt8.ofNat_toNat]

theorem Valid.of_ascii (small : ∀ c ∈ s, c < 0x80) : Valid s := by
  induction s with
  | nil => exact valid_nil
  | cons c rest ih =>
    have bound : c.toNat < 0x80 := small c mem_cons_self
    have head := valid_encodeRune (r := c.toNat) (.inl (by omega))
    rw [encodeRune_ascii bound] at head
    exact head.append (ih fun d mem => small d (mem_cons_of_mem c mem))

def Cont (b : UInt8) : Prop := 0x80 ≤ b.toNat ∧ b.toNat ≤ 0xBF

theorem isCont_iff (b : UInt8) : isCont b = true ↔ Cont b := decide_eq_true_iff

/-- The byte sequences beyond ASCII, by their length. -/
inductive Sequence : GoString → Prop where
  | two {a b : UInt8} : 0xC2 ≤ a.toNat → a.toNat ≤ 0xDF → Cont b → Sequence [a, b]
  | three {a b c : UInt8} : 0xE0 ≤ a.toNat → a.toNat ≤ 0xEF → Cont b → Cont c →
      (a.toNat = 0xE0 → 0xA0 ≤ b.toNat) → (a.toNat = 0xED → b.toNat ≤ 0x9F) → Sequence [a, b, c]
  | four {a b c d : UInt8} : 0xF0 ≤ a.toNat → a.toNat ≤ 0xF4 → Cont b → Cont c → Cont d →
      (a.toNat = 0xF0 → 0x90 ≤ b.toNat) → (a.toNat = 0xF4 → b.toNat ≤ 0x8F) →
      Sequence [a, b, c, d]

theorem Sequence.head (sequence : Sequence s) : ∃ c more, s = c :: more ∧ ¬ c < 0x80 := by
  cases sequence with
  | two low _ _ | three low _ _ _ _ _ | four low _ _ _ _ _ _ =>
    exact ⟨_, _, rfl, fun small => absurd (Nat.lt_of_le_of_lt low small) (by decide)⟩

theorem Sequence.two_le_length (sequence : Sequence s) : 2 ≤ s.length := by
  cases sequence with
  | two | three | four => simp

theorem ne_imp_iff (a k b m : UInt8) : (a != k || decide (m ≤ b)) = true ↔
    (a.toNat = k.toNat → m.toNat ≤ b.toNat) := by
  rw [Bool.or_eq_true, bne_iff_ne, decide_eq_true_iff, UInt8.toNat_inj, UInt8.le_iff_toNat_le]
  exact imp_iff_not_or.symm

theorem Sequence.runeLength_append (sequence : Sequence s) (rest : GoString) :
    runeLength (s ++ rest) = some s.length := by
  cases sequence with
  | @two a b low high cont =>
    have lead : 0xC2 ≤ a ∧ a ≤ 0xDF := ⟨low, high⟩
    simp only [cons_append, nil_append, runeLength, if_pos lead,
      if_pos ((isCont_iff b).mpr cont), length_cons, length_nil]
  | @three a b c low high cont cont' above below =>
    have notTwo : ¬ (0xC2 ≤ a ∧ a ≤ 0xDF) := fun two =>
      absurd (Nat.le_trans low two.2) (by decide)
    have lead : 0xE0 ≤ a ∧ a ≤ 0xEF := ⟨low, high⟩
    have conts : (isCont b && isCont c && (a != 0xE0 || decide (0xA0 ≤ b)) &&
        (a != 0xED || decide (b ≤ 0x9F))) = true := by
      simp only [Bool.and_eq_true, isCont_iff, ne_imp_iff]
      exact ⟨⟨⟨cont, cont'⟩, above⟩, below⟩
    simp only [cons_append, nil_append, runeLength, if_neg notTwo, if_pos lead,
      if_pos conts, length_cons, length_nil]
  | @four a b c d low high cont cont' cont'' above below =>
    have notTwo : ¬ (0xC2 ≤ a ∧ a ≤ 0xDF) := fun two =>
      absurd (Nat.le_trans low two.2) (by decide)
    have notThree : ¬ (0xE0 ≤ a ∧ a ≤ 0xEF) := fun three =>
      absurd (Nat.le_trans low three.2) (by decide)
    have conts : (decide (0xF0 ≤ a ∧ a ≤ 0xF4) && isCont b && isCont c && isCont d &&
        (a != 0xF0 || decide (0x90 ≤ b)) && (a != 0xF4 || decide (b ≤ 0x8F))) = true := by
      simp only [Bool.and_eq_true, isCont_iff, ne_imp_iff, decide_eq_true_iff]
      exact ⟨⟨⟨⟨⟨⟨low, high⟩, cont⟩, cont'⟩, cont''⟩, above⟩, below⟩
    simp only [cons_append, nil_append, runeLength, if_neg notTwo, if_neg notThree,
      if_pos conts, length_cons, length_nil]

theorem sequence_of_runeLength {n : Nat} (found : runeLength s = some n) : Sequence (s.take n) := by
  match s with
  | [] | [_] => cases found
  | a :: b :: more =>
    simp only [runeLength] at found
    split at found
    · rename_i lead
      split at found
      · rename_i cont
        cases found
        exact .two lead.1 lead.2 ((isCont_iff b).mp cont)
      · cases found
    · match more with
      | [] => cases found
      | c :: more =>
        simp only at found
        split at found
        · rename_i lead
          split at found
          · rename_i conts
            cases found
            simp only [Bool.and_eq_true, isCont_iff, ne_imp_iff] at conts
            obtain ⟨⟨⟨cont, cont'⟩, above⟩, below⟩ := conts
            exact .three lead.1 lead.2 cont cont' above below
          · cases found
        · match more with
          | [] => cases found
          | d :: more =>
            simp only at found
            split at found
            · rename_i conts
              cases found
              simp only [Bool.and_eq_true, isCont_iff, ne_imp_iff, decide_eq_true_iff] at conts
              obtain ⟨⟨⟨⟨⟨lead, cont⟩, cont'⟩, cont''⟩, above⟩, below⟩ := conts
              exact .four lead.1 lead.2 cont cont' cont'' above below
            · cases found

theorem toNat_ofNat {n : Nat} (small : n < 256) : (ofNat n).toNat = n :=
  toNat_ofNat_of_lt' small

theorem encodeRune_small (small : r < 0x80) : ∃ c : UInt8, encodeRune r = [c] ∧ c < 0x80 ∧ c.toNat = r := by
  have value := toNat_ofNat (show r < 256 by omega)
  refine ⟨ofNat r, by rw [encodeRune, if_pos small], ?_, value⟩
  rw [lt_iff_toNat_lt, value]
  exact small

theorem encodeRune_sequence (scalar : Scalar r) (large : 0x80 ≤ r) : Sequence (encodeRune r) := by
  have cont (n : Nat) : Cont (ofNat (0x80 + n % 64)) := by
    rw [Cont, toNat_ofNat (by omega)]
    omega
  simp only [Scalar] at scalar
  simp only [encodeRune, if_neg (show ¬ r < 0x80 by omega)]
  split
  · refine .two ?_ ?_ (cont r) <;> rw [toNat_ofNat (by omega)] <;> omega
  · split
    · refine .three ?_ ?_ (cont (r / 64)) (cont r) ?_ ?_ <;> rw [toNat_ofNat (by omega)] <;>
        try rw [toNat_ofNat (by omega)]
      all_goals omega
    · refine .four ?_ ?_ (cont (r / 4096)) (cont (r / 64)) (cont r) ?_ ?_ <;> rw [toNat_ofNat (by omega)] <;>
        try rw [toNat_ofNat (by omega)]
      all_goals omega

/-- The code point of a sequence, and zero for other strings. -/
def runeOf : GoString → Nat
  | [a, b] => (a.toNat - 0xC0) * 64 + (b.toNat - 0x80)
  | [a, b, c] => (a.toNat - 0xE0) * 4096 + (b.toNat - 0x80) * 64 + (c.toNat - 0x80)
  | [a, b, c, d] =>
    (a.toNat - 0xF0) * 262144 + (b.toNat - 0x80) * 4096 + (c.toNat - 0x80) * 64 + (d.toNat - 0x80)
  | _ => 0

theorem runeOf_two (a b : UInt8) : runeOf [a, b] = (a.toNat - 0xC0) * 64 + (b.toNat - 0x80) := rfl

theorem runeOf_three (a b c : UInt8) : runeOf [a, b, c] =
    (a.toNat - 0xE0) * 4096 + (b.toNat - 0x80) * 64 + (c.toNat - 0x80) := rfl

theorem runeOf_four (a b c d : UInt8) : runeOf [a, b, c, d] =
    (a.toNat - 0xF0) * 262144 + (b.toNat - 0x80) * 4096 + (c.toNat - 0x80) * 64 +
      (d.toNat - 0x80) := rfl

theorem ofNat_eq {n : Nat} {b : UInt8} (same : n = b.toNat) : UInt8.ofNat n = b := by
  rw [same, UInt8.ofNat_toNat]

theorem Sequence.encodes (sequence : Sequence s) : Scalar (runeOf s) ∧ encodeRune (runeOf s) = s := by
  cases sequence with
  | @two a b low high cont =>
    obtain ⟨low', high'⟩ := cont
    simp only [runeOf_two, Scalar]
    refine ⟨.inl (by omega), ?_⟩
    rw [encodeRune, if_neg (by omega), if_pos (by omega), ofNat_eq (b := a) (by omega),
      ofNat_eq (b := b) (by omega)]
  | @three a b c low high cont cont' above below =>
    obtain ⟨low', high'⟩ := cont
    obtain ⟨low'', high''⟩ := cont'
    simp only [runeOf_three, Scalar]
    refine ⟨by omega, ?_⟩
    rw [encodeRune, if_neg (by omega), if_neg (by omega), if_pos (by omega),
      ofNat_eq (b := a) (by omega), ofNat_eq (b := b) (by omega), ofNat_eq (b := c) (by omega)]
  | @four a b c d low high cont cont' cont'' above below =>
    obtain ⟨low₁, high₁⟩ := cont
    obtain ⟨low₂, high₂⟩ := cont'
    obtain ⟨low₃, high₃⟩ := cont''
    simp only [runeOf_four, Scalar]
    refine ⟨by omega, ?_⟩
    rw [encodeRune, if_neg (by omega), if_neg (by omega), if_neg (by omega),
      ofNat_eq (b := a) (by omega), ofNat_eq (b := b) (by omega), ofNat_eq (b := c) (by omega),
      ofNat_eq (b := d) (by omega)]

theorem runeOf_encodeRune (scalar : Scalar r) (large : 0x80 ≤ r) : runeOf (encodeRune r) = r := by
  simp only [Scalar] at scalar
  simp only [encodeRune, if_neg (show ¬ r < 0x80 by omega)]
  split
  · rw [runeOf_two, toNat_ofNat (by omega), toNat_ofNat (by omega)]
    omega
  · split
    · rw [runeOf_three, toNat_ofNat (by omega), toNat_ofNat (by omega), toNat_ofNat (by omega)]
      omega
    · rw [runeOf_four, toNat_ofNat (by omega), toNat_ofNat (by omega), toNat_ofNat (by omega), toNat_ofNat (by omega)]
      omega

def runesLoop : Nat → GoString → List Nat
  | 0, _ => []
  | _ + 1, [] => []
  | fuel + 1, c :: rest =>
    if c < 0x80 then
      c.toNat :: runesLoop fuel rest
    else
      match runeLength (c :: rest) with
      | none => 0xFFFD :: runesLoop fuel rest
      | some n => runeOf ((c :: rest).take n) :: runesLoop fuel ((c :: rest).drop n)

/-- The runes of a loop over a string; an ill-formed byte is read as the replacement character. -/
def runesOf (s : GoString) : List Nat := runesLoop s.length s

def stringOfRune (r : Nat) : GoString := if Scalar r then encodeRune r else replacement

theorem runesLoop_encodeRune (scalar : Scalar r) (fuel : Nat) (rest : GoString) :
    runesLoop (fuel + 1) (encodeRune r ++ rest) = r :: runesLoop fuel rest := by
  by_cases large : 0x80 ≤ r
  · have sequence := encodeRune_sequence scalar large
    have found := sequence.runeLength_append rest
    have rune := runeOf_encodeRune scalar large
    obtain ⟨c, more, bytes, high⟩ := sequence.head
    rw [bytes] at found rune ⊢
    rw [cons_append] at found ⊢
    simp only [runesLoop, if_neg high, found]
    rw [← cons_append, take_left, drop_left, rune]
  · obtain ⟨c, bytes, low, value⟩ := encodeRune_small (show r < 0x80 by omega)
    rw [bytes, singleton_append, runesLoop, if_pos low, value]

theorem encodeRune_ne_nil (r : Nat) : encodeRune r ≠ [] := by
  simp only [encodeRune]
  split
  · exact cons_ne_nil _ _
  · split
    · exact cons_ne_nil _ _
    · split
      · exact cons_ne_nil _ _
      · exact cons_ne_nil _ _

theorem encode_cons (r : Nat) (runes : List Nat) : encode (r :: runes) = encodeRune r ++ encode runes :=
  flatMap_cons ..

theorem encode_append (runes runes' : List Nat) :
    encode (runes ++ runes') = encode runes ++ encode runes' :=
  flatMap_append ..

section

variable (scalars : ∀ r ∈ runes, Scalar r)
include scalars

theorem runesLoop_encode : ∀ n, (encode runes).length ≤ n → runesLoop n (encode runes) = runes := by
  induction runes with
  | nil => intro n _; cases n <;> rfl
  | cons r runes ih =>
    intro n enough
    rw [encode_cons, length_append] at enough
    have := length_pos_iff.mpr (encodeRune_ne_nil r)
    obtain ⟨n, rfl⟩ : ∃ k, n = k + 1 := ⟨n - 1, by omega⟩
    rw [encode_cons, runesLoop_encodeRune (scalars r mem_cons_self)]
    rw [ih (fun x mem => scalars x (mem_cons_of_mem r mem)) n (by omega)]

theorem runesOf_encode : runesOf (encode runes) = runes :=
  runesLoop_encode scalars _ le_rfl

theorem encode_injective {runes' : List Nat}
    (scalars' : ∀ r ∈ runes', Scalar r) (same : encode runes = encode runes') : runes = runes' := by
  rw [← runesOf_encode scalars, same, runesOf_encode scalars']

theorem encode_prefix_iff {runes' : List Nat}
    (scalars' : ∀ r ∈ runes', Scalar r) : encode runes <+: encode runes' ↔ runes <+: runes' := by
  constructor
  · intro begins
    induction runes generalizing runes' with
    | nil => exact List.nil_prefix
    | cons r runes ih =>
      obtain ⟨more, whole⟩ := begins
      cases runes' with
      | nil =>
        rw [encode_cons, append_assoc] at whole
        exact absurd (append_eq_nil_iff.mp whole).1 (encodeRune_ne_nil r)
      | cons r' runes' =>
        rw [encode_cons, encode_cons, append_assoc] at whole
        have loops := congrArg (runesLoop 1) whole
        rw [runesLoop_encodeRune (scalars r mem_cons_self),
          runesLoop_encodeRune (scalars' r' mem_cons_self)] at loops
        obtain rfl := (List.cons.inj loops).1
        rw [prefix_cons_inj]
        refine ih (fun x mem => scalars x (mem_cons_of_mem r mem))
          (fun x mem => scalars' x (mem_cons_of_mem r mem)) ?_
        exact ⟨more, append_cancel_left whole⟩
  · rintro ⟨more, rfl⟩
    rw [encode_append]
    exact prefix_append _ _

end

end Monitor.Utf8
