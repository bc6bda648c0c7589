import Monitor.Lib.Utf8

/-! # Reading back what was written

Parsing the compact text of a tree gives the tree again, with every string in it made
valid UTF-8: that is what writing a string does to it. The scanners are described one
by one, each in front of an arbitrary rest of the text.
-/

namespace Monitor.Json

open GoText List

variable {c : UInt8} {s : GoString}

section Strings

/-- A string with its ill-formed bytes replaced, as the writer leaves it. -/
def sanitizeLoop : Nat → GoString → GoString
  | 0, _ => []
  | _ + 1, [] => []
  | fuel + 1, c :: rest =>
    if c < 0x80 then
      c :: sanitizeLoop fuel rest
    else
      match runeLength (c :: rest) with
      | none => replacement ++ sanitizeLoop fuel rest
      | some n => (c :: rest).take n ++ sanitizeLoop fuel ((c :: rest).drop n)

def sanitize (s : GoString) : GoString := sanitizeLoop s.length s

theorem hexDigit_hexLower : ∀ n < 16, hexDigit (hexLower n) = some n := by
  decide

theorem unicodeEscape_byte (c : UInt8) (small : c < 0x80) (rest : GoString) :
    unicodeEscape (48 :: 48 :: hexLower (c.toNat / 16) :: hexLower (c.toNat % 16) :: rest) =
      some ([c], rest) := by
  have bound : c.toNat < 128 := small
  have high := hexDigit_hexLower (c.toNat / 16) (by omega)
  have low := hexDigit_hexLower (c.toNat % 16) (by omega)
  have zero : hexDigit 48 = some 0 := by decide
  simp only [unicodeEscape, hex4, high, low, zero, Option.bind_eq_bind, Option.bind_some]
  have value : ((0 * 16 + 0) * 16 + c.toNat / 16) * 16 + c.toNat % 16 = c.toNat := by omega
  rw [value, if_neg (by omega), encodeRune, if_pos bound, UInt8.ofNat_toNat]

/-- The result of a scanner with some bytes in front. -/
def prepend (front : GoString) (scanned : Option (GoString × GoString)) :
    Option (GoString × GoString) :=
  scanned.map fun (s, rest) => (front ++ s, rest)

theorem scanString_simple {e c : UInt8} (notUnicode : e ≠ 117) (known : simpleEscape e = some c)
    (fuel : Nat) (rest : GoString) :
    scanString (fuel + 1) (92 :: e :: rest) = prepend [c] (scanString fuel rest) := by
  rw [scanString]
  · simp only [show ¬ (92 : UInt8) = 34 by decide, if_false, if_true, known]
    cases scanString fuel rest with
    | none => rfl
    | some scanned => rfl
  · exact notUnicode

theorem scanString_unicode {text rune rest : GoString}
    (known : unicodeEscape text = some (rune, rest)) (fuel : Nat) :
    scanString (fuel + 1) (92 :: 117 :: text) = prepend rune (scanString fuel rest) := by
  rw [scanString]
  simp only [show ¬ (92 : UInt8) = 34 by decide, if_false, if_true, known]
  cases h : scanString fuel rest with
  | none => simp [h, prepend]
  | some scanned => simp [h, prepend]

theorem scanString_plain (notQuote : c ≠ 34) (notEscape : c ≠ 92) (printable : ¬ c < 32)
    (small : c < 0x80) (fuel : Nat) (rest : GoString) :
    scanString (fuel + 1) (c :: rest) = prepend [c] (scanString fuel rest) := by
  simp only [scanString, if_neg notQuote, if_neg notEscape, if_neg printable, if_pos small]
  cases scanString fuel rest with
  | none => rfl
  | some scanned => rfl

theorem scanString_escapeByte (c : UInt8) (small : c < 0x80) (fuel : Nat) (rest : GoString) :
    scanString (fuel + 1) (escapeByte c ++ rest) = prepend [c] (scanString fuel rest) := by
  simp only [escapeByte]
  split
  · rename_i special
    rcases special with rfl | rfl
    · exact scanString_simple (by decide) (by decide) fuel rest
    · exact scanString_simple (by decide) (by decide) fuel rest
  · rename_i ordinary
    iterate 5
      split
      · rename_i same
        subst same
        exact scanString_simple (by decide) (by decide) fuel rest
    split
    · exact scanString_unicode (unicodeEscape_byte c small rest) fuel
    · rename_i plain
      exact scanString_plain (fun h => ordinary (.inl h)) (fun h => ordinary (.inr h))
        (fun h => plain (.inl h)) small fuel rest

variable {n : Nat}

theorem runeLength_take (found : runeLength s = some n) (rest : GoString) :
    runeLength (s.take n ++ rest) = some n ∧ n ≤ s.length ∧ 2 ≤ n := by
  have sequence := Utf8.sequence_of_runeLength found
  have whole := sequence.runeLength_append (s.drop n)
  rw [take_append_drop, found, Option.some_inj] at whole
  have two := sequence.two_le_length
  refine ⟨?_, ?_, by omega⟩
  · rw [sequence.runeLength_append rest, ← whole]
  · rw [length_take] at whole
    omega

variable {more : GoString}

theorem scanString_rune (large : ¬ c < 0x80)
    (found : runeLength (c :: more) = some n) (fuel : Nat) (rest : GoString) :
    scanString (fuel + 1) ((c :: more).take n ++ rest) =
      prepend ((c :: more).take n) (scanString fuel rest) := by
  obtain ⟨again, bound, two⟩ := runeLength_take found rest
  obtain ⟨n, rfl⟩ : ∃ k, n = k + 1 := ⟨n - 1, by omega⟩
  have taken : ((c :: more).take (n + 1)).length = n + 1 := length_take_of_le bound
  have atLeast : ∀ d : UInt8, d < 0x80 → c ≠ d := by
    rintro d small rfl
    exact large small
  rw [take_succ_cons, cons_append] at again ⊢
  rw [take_succ_cons, length_cons] at taken
  have back : (c :: (more.take n ++ rest)).take (n + 1) = c :: more.take n := by
    rw [take_succ_cons, take_left' (by omega)]
  have behind : (c :: (more.take n ++ rest)).drop (n + 1) = rest := by
    rw [drop_succ_cons, drop_left' (by omega)]
  have printable : ¬ c < 32 := fun low => large (UInt8.lt_trans low (by decide))
  simp only [scanString, if_neg (atLeast 34 (by decide)), if_neg (atLeast 92 (by decide)),
    if_neg printable, if_neg large, again, back, behind]
  cases scanString fuel rest with
  | none => rfl
  | some scanned => rfl

theorem escapeByte_length (c : UInt8) : 0 < (escapeByte c).length := by
  simp only [escapeByte]
  split
  · exact Nat.succ_pos _
  · split
    · decide
    · split
      · decide
      · split
        · decide
        · split
          · decide
          · split
            · decide
            · split
              · exact Nat.succ_pos _
              · exact Nat.succ_pos _

theorem scanString_illFormed (fuel : Nat) (rest : GoString) :
    scanString (fuel + 1) (ascii "\\ufffd" ++ rest) = prepend replacement (scanString fuel rest) := by
  have known : unicodeEscape (ascii "fffd" ++ rest) = some (replacement, rest) := rfl
  exact scanString_unicode known fuel

theorem scanString_escapeRune (large : ¬ c < 0x80)
    (found : runeLength (c :: more) = some n) (fuel : Nat) (rest : GoString) :
    scanString (fuel + 1) (escapeRune ((c :: more).take n) ++ rest) =
      prepend ((c :: more).take n) (scanString fuel rest) := by
  simp only [escapeRune]
  split
  · rename_i separator
    rw [separator]
    exact scanString_unicode rfl fuel
  · split
    · rename_i separator
      rw [separator]
      exact scanString_unicode rfl fuel
    · exact scanString_rune large found fuel rest

theorem escapeRune_length
    (found : runeLength (c :: more) = some n) : 0 < (escapeRune ((c :: more).take n)).length := by
  obtain ⟨_, bound, two⟩ := runeLength_take found []
  simp only [escapeRune]
  split
  · decide
  · split
    · decide
    · rw [length_take_of_le bound]
      omega

theorem scanString_escape :
    ∀ n (s : GoString) fuel rest, s.length ≤ n → (escapeString n s).length < fuel →
      scanString fuel (escapeString n s ++ 34 :: rest) = some (sanitizeLoop n s, rest) := by
  intro n
  induction n with
  | zero =>
    intro s fuel rest short enough
    obtain ⟨fuel, rfl⟩ : ∃ k, fuel = k + 1 := ⟨fuel - 1, by omega⟩
    rfl
  | succ n ih =>
    intro s fuel rest short enough
    obtain ⟨fuel, rfl⟩ : ∃ k, fuel = k + 1 := ⟨fuel - 1, by omega⟩
    cases s with
    | nil => rfl
    | cons c more =>
      rw [length_cons] at short
      by_cases small : c < 0x80
      · have some_ := escapeByte_length c
        simp only [escapeString, if_pos small, length_append] at enough ⊢
        rw [append_assoc, scanString_escapeByte c small, ih more fuel rest (by omega) (by omega)]
        simp only [sanitizeLoop, if_pos small]
        rfl
      · simp only [escapeString, if_neg small] at enough ⊢
        cases found : runeLength (c :: more) with
        | none =>
          simp only [found, length_append] at enough ⊢
          have six : (ascii "\\ufffd").length = 6 := by decide
          rw [append_assoc, scanString_illFormed, ih more fuel rest (by omega) (by omega)]
          simp only [sanitizeLoop, if_neg small, found]
          rfl
        | some k =>
          have some_ := escapeRune_length found
          obtain ⟨_, bound, two⟩ := runeLength_take found []
          have shorter : ((c :: more).drop k).length ≤ n := by
            rw [length_drop, length_cons]
            omega
          simp only [found, length_append] at enough ⊢
          rw [append_assoc, scanString_escapeRune small found, ih _ fuel rest shorter (by omega)]
          simp only [sanitizeLoop, if_neg small, found]
          rfl

theorem sanitize_ne_nil (some_ : s ≠ []) : sanitize s ≠ [] := by
  cases s with
  | nil => exact absurd rfl some_
  | cons c rest =>
    simp only [sanitize, length_cons, sanitizeLoop]
    split
    · exact cons_ne_nil _ _
    · split
      · exact cons_ne_nil _ _
      · rename_i n found
        obtain ⟨_, _, two⟩ := runeLength_take found []
        obtain ⟨n, rfl⟩ : ∃ k, n = k + 1 := ⟨n - 1, by omega⟩
        exact cons_ne_nil _ _

end Strings

variable {members : List (GoString × Tree)} {t : Tree}

section Trees

/-- What may follow a value in a compact text. -/
def Delimited (rest : GoString) : Prop :=
  rest = [] ∨ ∃ c more, rest = c :: more ∧ (c = 44 ∨ c = 93 ∨ c = 125)

/-- A number literal that the scanner takes as a whole. -/
structure IsLiteral (n : GoString) : Prop where
  head : ∃ c more, n = c :: more ∧ (c = 45 ∨ isDigit c = true)
  scanned : ∀ rest, Delimited rest → scanNumber (n ++ rest) = some (n, rest)

mutual

/-- A tree with proper literals and at most `room` containers around any value. -/
def Plain : Nat → Tree → Prop
  | _, .null | _, .bool _ | _, .string _ => True
  | _, .number n => IsLiteral n
  | 0, .array _ | 0, .object _ => False
  | room + 1, .array items => PlainItems room items
  | room + 1, .object members => PlainMembers room members

def PlainItems : Nat → List Tree → Prop
  | _, [] => True
  | room, item :: items => Plain room item ∧ PlainItems room items

def PlainMembers : Nat → List (GoString × Tree) → Prop
  | _, [] => True
  | room, (_, value) :: members => Plain room value ∧ PlainMembers room members

end

mutual

/-- A tree as its text is read: with all strings made valid. -/
def clean : Tree → Tree
  | .null => .null
  | .bool b => .bool b
  | .number n => .number n
  | .string s => .string (sanitize s)
  | .array items => .array (cleanItems items)
  | .object members => .object (cleanMembers members)

def cleanItems : List Tree → List Tree
  | [] => []
  | item :: items => clean item :: cleanItems items

def cleanMembers : List (GoString × Tree) → List (GoString × Tree)
  | [] => []
  | (k, v) :: members => (sanitize k, clean v) :: cleanMembers members

end

theorem skipSpace_cons (mark : c ≠ 32 ∧ c ≠ 9 ∧ c ≠ 10 ∧ c ≠ 13) (rest : GoString) :
    skipSpace (c :: rest) = c :: rest := by
  rw [skipSpace, dropWhile_cons_of_neg]
  simp only [mark, or_self, decide_false, Bool.false_eq_true, not_false_eq_true]

theorem scanString_quote (s rest : GoString) (fuel : Nat)
    (enough : (escapeString s.length s).length < fuel) :
    scanString fuel (escapeString s.length s ++ 34 :: rest) = some (sanitize s, rest) :=
  scanString_escape s.length s fuel rest le_rfl enough

def Opens (c : UInt8) : Prop := c = 110 ∨ c = 116 ∨ c = 102 ∨ c = 34 ∨ c = 91 ∨ c = 123 ∨ c = 45 ∨
  isDigit c = true

instance (c : UInt8) : Decidable (Opens c) := inferInstanceAs (Decidable (_ ∨ _))

theorem Opens.mark : ∀ {c : UInt8}, Opens c →
    (c ≠ 32 ∧ c ≠ 9 ∧ c ≠ 10 ∧ c ≠ 13) ∧ c ≠ 93 ∧ c ≠ 125 := by
  decide +kernel

theorem write_head {room : Nat} (plain : Plain room t) :
    ∃ c more, write t = c :: more ∧ Opens c := by
  cases t with
  | null => exact ⟨_, _, rfl, by decide⟩
  | bool b =>
    cases b with
    | false => exact ⟨_, _, rfl, by decide⟩
    | true => exact ⟨_, _, rfl, by decide⟩
  | number n =>
    obtain ⟨c, more, rfl, digit⟩ := plain.head
    refine ⟨c, more, rfl, ?_⟩
    tauto
  | string s => exact ⟨_, _, rfl, by decide⟩
  | array items => exact ⟨_, _, rfl, by decide⟩
  | object members => exact ⟨_, _, rfl, by decide⟩

section Numbers

variable {rest : GoString}

theorem Delimited.head_ne (delimited : Delimited rest) :
    ∀ c more, rest = c :: more → isDigit c = false ∧ c ≠ 46 ∧ c ≠ 101 ∧ c ≠ 69 := by
  rintro c more rfl
  rcases delimited with none_ | ⟨c', more', same, mark⟩
  · cases none_
  · cases same
    revert c
    decide +kernel

theorem scanDigits_append {digits : GoString} (all : ∀ c ∈ digits, isDigit c = true)
    (some_ : digits ≠ []) (delimited : Delimited rest) :
    scanDigits (digits ++ rest) = some (digits, rest) := by
  have stop : rest.takeWhile isDigit = [] ∧ rest.dropWhile isDigit = rest := by
    cases rest with
    | nil => exact ⟨rfl, rfl⟩
    | cons c more =>
      have noDigit := (delimited.head_ne c more rfl).1
      simp [noDigit]
  have spanned : (digits ++ rest).span isDigit = (digits, rest) := by
    rw [span_eq_takeWhile_dropWhile, takeWhile_append_of_pos all,
      dropWhile_append_of_pos all, stop.1, stop.2, append_nil]
  simp only [scanDigits, spanned]
  rw [if_neg (by simpa using some_)]

theorem scanFraction_delimited (delimited : Delimited rest) : scanFraction rest = some ([], rest) := by
  cases rest with
  | nil => rfl
  | cons c more =>
    have notPoint := (delimited.head_ne c more rfl).2.1
    rw [scanFraction]
    rintro more' same
    cases same
    exact notPoint rfl

theorem scanExponent_delimited (delimited : Delimited rest) : scanExponent rest = some ([], rest) := by
  cases rest with
  | nil => rfl
  | cons c more =>
    obtain ⟨_, _, lower, upper⟩ := delimited.head_ne c more rfl
    cases more with
    | nil => simp only [scanExponent, lower, upper, or_self, if_false]
    | cons d more => simp only [scanExponent, lower, upper, or_self, if_false]

theorem scanInteger_natDigits (n : Nat) (delimited : Delimited rest) :
    scanInteger (natDigits n ++ rest) = some (natDigits n, rest) := by
  obtain ⟨c, more, shape, zero⟩ := natDigits_head n
  by_cases isZero : c = 48
  · rw [zero isZero]
    rfl
  · have whole : scanInteger (natDigits n ++ rest) = scanDigits (natDigits n ++ rest) := by
      rw [shape, cons_append, scanInteger]
      rintro more' same
      cases same
      exact isZero rfl
    rw [whole]
    exact scanDigits_append (fun _ mem => isDigit_of_mem_natDigits mem) (natDigits_ne_nil n)
      delimited

theorem itoa_isLiteral (z : Int) : IsLiteral (itoa z) where
  head := by
    by_cases negative : z < 0
    · exact ⟨45, natDigits z.natAbs, by rw [itoa, if_pos negative], .inl rfl⟩
    · obtain ⟨c, more, shape, _⟩ := natDigits_head z.natAbs
      refine ⟨c, more, by rw [itoa, if_neg negative, shape], .inr ?_⟩
      exact isDigit_of_mem_natDigits (n := z.natAbs) (by rw [shape]; exact mem_cons_self)
  scanned := by
    intro rest delimited
    have integer := scanInteger_natDigits z.natAbs delimited
    have split_ : ∃ sign, itoa z = sign ++ natDigits z.natAbs ∧
        splitSign (itoa z ++ rest) = (sign, natDigits z.natAbs ++ rest) := by
      by_cases negative : z < 0
      · exact ⟨[45], by rw [itoa, if_pos negative]; rfl, by rw [itoa, if_pos negative]; rfl⟩
      · refine ⟨[], by rw [itoa, if_neg negative]; rfl, ?_⟩
        obtain ⟨c, more, shape, _⟩ := natDigits_head z.natAbs
        have isDigit_ : isDigit c = true :=
          isDigit_of_mem_natDigits (n := z.natAbs) (by rw [shape]; exact mem_cons_self)
        rw [itoa, if_neg negative, shape, cons_append, splitSign]
        rintro more' same
        cases same
        cases isDigit_
    obtain ⟨sign, whole, split_⟩ := split_
    simp only [scanNumber, split_, integer, scanFraction_delimited delimited,
      scanExponent_delimited delimited, Option.bind_eq_bind, Option.bind_some, append_nil]
    rw [← whole]

end Numbers

theorem parseValue_number {n : GoString} (literal : IsLiteral n) (fuel depth : Nat)
    {rest : GoString} (delimited : Delimited rest) :
    parseValue (fuel + 1) depth (n ++ rest) = some (.number n, rest) := by
  obtain ⟨c, more, rfl, digit⟩ := literal.head
  have opens : Opens c := by
    tauto
  have scanned := literal.scanned rest delimited
  rw [cons_append] at scanned ⊢
  have other : c ≠ 34 ∧ c ≠ 91 ∧ c ≠ 123 ∧ c ≠ 116 ∧ c ≠ 102 ∧ c ≠ 110 := by
    clear opens literal scanned
    revert c
    decide +kernel
  have notWord : literals.find? (fun l => l.1.isPrefixOf (c :: (more ++ rest))) = none := by
    simp [literals, ascii, isPrefixOf, Ne.symm other.2.2.2.1, Ne.symm other.2.2.2.2.1,
      Ne.symm other.2.2.2.2.2]
  simp only [parseValue, skipSpace_cons opens.mark.1, if_neg other.1, if_neg other.2.1,
    if_neg other.2.2.1, notWord, scanned, Option.map_some]

theorem parseValue_string (s : GoString) (fuel depth : Nat) (rest : GoString) :
    parseValue (fuel + 1) depth (quote s ++ rest) = some (.string (sanitize s), rest) := by
  have text : quote s ++ rest = 34 :: (escapeString s.length s ++ 34 :: rest) := by
    simp only [quote, cons_append, append_assoc, nil_append]
  have enough : (escapeString s.length s).length <
      (escapeString s.length s ++ 34 :: rest).length + 1 := by
    rw [length_append, length_cons]
    omega
  rw [text]
  simp only [parseValue, skipSpace_cons (show (34 : UInt8) ≠ 32 ∧ _ by decide), if_true,
    scanString_quote s rest _ enough, Option.map_some]

theorem commaSeparated_cons (s : GoString) {rest : List GoString} (some_ : rest ≠ []) :
    commaSeparated (s :: rest) = s ++ 44 :: commaSeparated rest := by
  cases rest with
  | nil => exact absurd rfl some_
  | cons t rest => rfl

theorem delimited_cons (mark : c = 44 ∨ c = 93 ∨ c = 125) (rest : GoString) :
    Delimited (c :: rest) :=
  .inr ⟨c, rest, rfl, mark⟩

variable {text : GoString}

theorem parseValue_array (opens : Opens c) (fuel : Nat) {depth : Nat}
    (deeper : depth ≠ maxNestingDepth) : parseValue (fuel + 1) depth (91 :: c :: text) =
      (parseItems fuel (depth + 1) (c :: text)).map fun (items, rest) => (.array items, rest) := by
  have notClosed := opens.mark.2.1
  simp only [parseValue, skipSpace_cons (show (91 : UInt8) ≠ 32 ∧ _ by decide),
    skipSpace_cons opens.mark.1, show ¬ (91 : UInt8) = 34 by decide, if_false, if_true,
    if_neg deeper]
  split
  · rename_i same
    cases same
    exact absurd rfl notClosed
  · rfl

theorem parseValue_object (fuel : Nat) {depth : Nat}
    (deeper : depth ≠ maxNestingDepth) : parseValue (fuel + 1) depth (123 :: 34 :: text) =
      (parseMembers fuel (depth + 1) (34 :: text)).map fun (members, rest) =>
        (.object members, rest) := by
  simp only [parseValue, skipSpace_cons (show (123 : UInt8) ≠ 32 ∧ _ by decide),
    skipSpace_cons (show (34 : UInt8) ≠ 32 ∧ _ by decide), show ¬ (123 : UInt8) = 34 by decide,
    show ¬ (123 : UInt8) = 91 by decide, if_false, if_true, if_neg deeper]
  rfl

theorem commaSeparated_head {room : Nat} {item : Tree} (items : List Tree)
    (plain : PlainItems room (item :: items)) :
    ∃ c more, commaSeparated (writeItems (item :: items)) = c :: more ∧ Opens c := by
  obtain ⟨c, more, shape, opens⟩ := write_head plain.1
  cases items with
  | nil => exact ⟨c, more, shape, opens⟩
  | cons next items =>
    refine ⟨c, more ++ 44 :: commaSeparated (writeItems (next :: items)), ?_, opens⟩
    have others : writeItems (next :: items) ≠ [] := cons_ne_nil _ _
    rw [writeItems, commaSeparated_cons _ others, shape, cons_append]

theorem commaSeparated_member (mem : GoString × Tree) (members : List (GoString × Tree)) :
    ∃ more, commaSeparated (writeMembers (mem :: members)) = 34 :: more := by
  cases members with
  | nil => exact ⟨_, rfl⟩
  | cons next members => exact ⟨_, rfl⟩

theorem parseMembers_member {fuel depth : Nat} {value : Tree} {tail : GoString}
    (parsed : parseValue fuel depth text = some (value, tail)) (name : GoString) :
    parseMembers (fuel + 1) depth (quote name ++ 58 :: text) =
      match skipSpace tail with
      | 44 :: rest => do
          let (members, rest) ← parseMembers fuel depth rest
          some ((sanitize name, value) :: members, rest)
      | 125 :: rest => some ([(sanitize name, value)], rest)
      | _ => none := by
  have shape : quote name ++ 58 :: text =
      34 :: (escapeString name.length name ++ 34 :: 58 :: text) := by
    simp only [quote, cons_append, append_assoc, nil_append]
  have enough : (escapeString name.length name).length <
      (escapeString name.length name ++ 34 :: 58 :: text).length + 1 := by
    rw [length_append]
    omega
  rw [shape]
  simp only [parseMembers, skipSpace_cons (show (34 : UInt8) ≠ 32 ∧ _ by decide),
    scanString_quote name (58 :: text) _ enough, Option.bind_eq_bind, Option.bind_some,
    skipSpace_cons (show (58 : UInt8) ≠ 32 ∧ _ by decide)]
  rewrite [parsed]
  rfl

theorem parseValue_object_write {fuel depth : Nat}
    {rest : GoString} (deeper : depth ≠ maxNestingDepth) (inner : members ≠ [] →
      parseMembers fuel (depth + 1) (commaSeparated (writeMembers members) ++ 125 :: rest) =
        some (cleanMembers members, rest)) :
    parseValue (fuel + 1) depth (write (.object members) ++ rest) =
      some (clean (.object members), rest) := by
  cases members with
  | nil =>
    simp only [write, writeMembers, commaSeparated, cons_append, nil_append, parseValue,
      skipSpace_cons (show (123 : UInt8) ≠ 32 ∧ _ by decide),
      skipSpace_cons (show (125 : UInt8) ≠ 32 ∧ _ by decide), if_neg deeper, clean, cleanMembers]
    rfl
  | cons mem members =>
    have inner := inner (cons_ne_nil _ _)
    obtain ⟨more, begins⟩ := commaSeparated_member mem members
    simp only [write, cons_append, append_assoc, nil_append, clean]
    rw [begins, cons_append] at inner ⊢
    rw [parseValue_object fuel deeper, inner]
    rfl

mutual

theorem parseValue_write {room : Nat} (t : Tree) (plain : Plain room t) (fuel depth : Nat)
    (rest : GoString) (delimited : Delimited rest) (enough : (write t).length ≤ fuel)
    (shallow : depth + room ≤ maxNestingDepth) :
    parseValue fuel depth (write t ++ rest) = some (clean t, rest) := by
  obtain ⟨c, more, shape, _⟩ := write_head plain
  obtain ⟨fuel, rfl⟩ : ∃ k, fuel = k + 1 := by
    rw [shape, length_cons] at enough
    exact ⟨fuel - 1, by omega⟩
  cases t with
  | null => rfl
  | bool b =>
    cases b with
    | false => rfl
    | true => rfl
  | number n =>
    simp only [Plain] at plain
    exact parseValue_number plain fuel depth delimited
  | string s => exact parseValue_string s fuel depth rest
  | array items =>
    cases room with
    | zero => simp only [Plain] at plain
    | succ room =>
      simp only [Plain] at plain
      have deeper : depth ≠ maxNestingDepth := by omega
      cases items with
      | nil =>
        simp only [write, writeItems, commaSeparated, cons_append, nil_append,
          parseValue, skipSpace_cons (show (91 : UInt8) ≠ 32 ∧ _ by decide),
          skipSpace_cons (show (93 : UInt8) ≠ 32 ∧ _ by decide), if_neg deeper, clean, cleanItems]
        rfl
      | cons item items =>
        simp only [write, cons_append, length_cons, length_append, length_nil] at enough
        have inner := parseItems_write (item :: items) plain (cons_ne_nil _ _) fuel
          (depth + 1) rest (by omega) (by omega)
        obtain ⟨c, more, begins, opens⟩ := commaSeparated_head items plain
        simp only [write, cons_append, append_assoc, nil_append, clean]
        rw [begins, cons_append] at inner ⊢
        rw [parseValue_array opens fuel deeper, inner]
        rfl
  | object members =>
    cases room with
    | zero => simp only [Plain] at plain
    | succ room =>
      simp only [Plain] at plain
      refine parseValue_object_write (by omega) fun some_ => ?_
      simp only [write, cons_append, length_cons, length_append, length_nil] at enough
      exact parseMembers_write members plain some_ fuel (depth + 1) rest (by omega) (by omega)
termination_by sizeOf t
decreasing_by
  all_goals
    subst_vars
    simp +arith only [Tree.array.sizeOf_spec, Tree.object.sizeOf_spec, cons.sizeOf_spec]

theorem parseItems_write {room : Nat} (items : List Tree) (plain : PlainItems room items)
    (some_ : items ≠ []) (fuel depth : Nat) (rest : GoString)
    (enough : (commaSeparated (writeItems items)).length < fuel)
    (shallow : depth + room ≤ maxNestingDepth) :
    parseItems fuel depth (commaSeparated (writeItems items) ++ 93 :: rest) =
      some (cleanItems items, rest) := by
  cases items with
  | nil => exact absurd rfl some_
  | cons item items =>
    simp only [PlainItems] at plain
    obtain ⟨fuel, rfl⟩ : ∃ k, fuel = k + 1 := ⟨fuel - 1, by omega⟩
    cases items with
    | nil =>
      simp only [writeItems, commaSeparated] at enough ⊢
      have first := parseValue_write item plain.1 fuel depth (93 :: rest)
        (delimited_cons (by decide) rest) (by omega) shallow
      simp only [parseItems, first, Option.bind_eq_bind, Option.bind_some,
        skipSpace_cons (show (93 : UInt8) ≠ 32 ∧ _ by decide), cleanItems]
    | cons next items =>
      have more : writeItems (next :: items) ≠ [] := cons_ne_nil _ _
      rw [writeItems, commaSeparated_cons _ more, length_append, length_cons] at enough
      rw [writeItems, commaSeparated_cons _ more, append_assoc, cons_append]
      have first := parseValue_write item plain.1 fuel depth
        (44 :: (commaSeparated (writeItems (next :: items)) ++ 93 :: rest))
        (delimited_cons (by decide) _) (by omega) shallow
      have others := parseItems_write (next :: items) plain.2 (cons_ne_nil _ _) fuel depth
        rest (by omega) shallow
      simp only [parseItems, first, others, Option.bind_eq_bind, Option.bind_some,
        skipSpace_cons (show (44 : UInt8) ≠ 32 ∧ _ by decide), cleanItems]
termination_by sizeOf items
decreasing_by
  all_goals
    subst_vars
    simp +arith only [cons.sizeOf_spec]

theorem parseMembers_write {room : Nat} (members : List (GoString × Tree))
    (plain : PlainMembers room members) (some_ : members ≠ []) (fuel depth : Nat) (rest : GoString)
    (enough : (commaSeparated (writeMembers members)).length < fuel)
    (shallow : depth + room ≤ maxNestingDepth) :
    parseMembers fuel depth (commaSeparated (writeMembers members) ++ 125 :: rest) =
      some (cleanMembers members, rest) := by
  cases members with
  | nil => exact absurd rfl some_
  | cons mem members =>
    cases mem with
    | mk name value =>
      simp only [PlainMembers] at plain
      obtain ⟨fuel, rfl⟩ : ∃ k, fuel = k + 1 := ⟨fuel - 1, by omega⟩
      cases members with
      | nil =>
        simp only [writeMembers, commaSeparated, length_append, length_cons] at enough
        have first := parseValue_write value plain.1 fuel depth (125 :: rest)
          (delimited_cons (by decide) rest) (by omega) shallow
        simp only [writeMembers, commaSeparated, append_assoc, cons_append]
        rw [parseMembers_member first name, skipSpace_cons (by decide)]
        rfl
      | cons next members =>
        have more : writeMembers (next :: members) ≠ [] := cons_ne_nil _ _
        simp only [writeMembers] at more enough ⊢
        rw [commaSeparated_cons _ more] at enough ⊢
        simp only [length_append, length_cons] at enough
        have first := parseValue_write value plain.1 fuel depth
          (44 :: (commaSeparated (writeMembers (next :: members)) ++ 125 :: rest))
          (delimited_cons (by decide) _) (by omega) shallow
        have others := parseMembers_write (next :: members) plain.2 (cons_ne_nil _ _) fuel
          depth rest (by simp only [writeMembers]; omega) shallow
        simp only [writeMembers] at first others
        simp only [append_assoc, cons_append]
        rw [parseMembers_member first name, skipSpace_cons (by decide)]
        simp only [others, Option.bind_eq_bind, Option.bind_some, cleanMembers]
termination_by sizeOf members
decreasing_by
  all_goals
    subst_vars
    simp +arith only [cons.sizeOf_spec, Prod.mk.sizeOf_spec]

end

theorem parseValue_write_object
    (plain : PlainMembers (maxNestingDepth - 1) members) {fuel : Nat}
    (enough : (write (.object members)).length ≤ fuel) (rest : GoString) :
    parseValue (fuel + 1) 0 (write (.object members) ++ rest) =
      some (clean (.object members), rest) := by
  refine parseValue_object_write (by decide) fun some_ => ?_
  simp only [write, cons_append, length_cons, length_append, length_nil] at enough
  exact parseMembers_write members plain some_ fuel 1 rest (by omega) (by decide)

theorem parse_write (plain : Plain maxNestingDepth t) :
    parse (write t) = some (clean t) := by
  have whole := parseValue_write t plain (2 * (write t).length + 2) 0 [] (.inl rfl) (by omega)
    (by omega)
  rw [append_nil] at whole
  simp only [parse, whole]
  rfl

end Trees

section Denotation

variable {fl : Floats} {room : Nat}

/-- The tree is read back from its text as it stands, and decodes to `v`. -/
structure Denotes (fl : Floats) (room : Nat) (t : Tree) (v : Value) : Prop where
  plain : Plain room t
  valid : clean t = t
  decoded : decode fl t = some v

/-- The same for members of an object that are decoded into the map `m`. -/
structure MembersDenote (fl : Floats) (room : Nat) (members : List (GoString × Tree))
    (m m' : List (GoString × Value)) : Prop where
  plain : PlainMembers room members
  valid : cleanMembers members = members
  decoded : decodeMembers fl members m = some m'

theorem Denotes.string (valid : sanitize s = s) :
    Denotes fl room (.string s) (.string s) :=
  ⟨trivial, by rw [clean, valid], rfl⟩

theorem Denotes.number {n : GoString} {x : Float64} (literal : IsLiteral n)
    (inRange : fl.parse n = some x) : Denotes fl room (.number n) (.float x) :=
  ⟨by cases room <;> exact literal, rfl, by rw [decode, inRange]; rfl⟩

theorem Denotes.array {α : Type} {tree : α → Tree} {value : α → Value}
    (each : ∀ a, Denotes fl room (tree a) (value a)) (items : List α) :
    Denotes fl (room + 1) (.array (items.map tree)) (.slice (items.map value)) := by
  have all : PlainItems room (items.map tree) ∧ cleanItems (items.map tree) = items.map tree ∧
      decodeItems fl (items.map tree) = some (items.map value) := by
    induction items with
    | nil => exact ⟨trivial, rfl, rfl⟩
    | cons item items ih =>
      obtain ⟨plain, valid, decoded⟩ := ih
      simp only [map_cons, PlainItems, cleanItems, decodeItems, valid, decoded,
        (each item).valid, (each item).decoded]
      exact ⟨⟨(each item).plain, plain⟩, trivial, rfl⟩
  obtain ⟨plain, valid, decoded⟩ := all
  exact ⟨plain, by rw [clean, valid], by rw [decode, decoded]; rfl⟩

theorem MembersDenote.nil (m : List (GoString × Value)) : MembersDenote fl room [] m m :=
  ⟨trivial, rfl, rfl⟩

theorem MembersDenote.cons {name : GoString} {v : Value} {m m' : List (GoString × Value)}
    (valid : sanitize name = name) (value : Denotes fl room t v)
    (rest : MembersDenote fl room members (setKey name v m) m') :
    MembersDenote fl room ((name, t) :: members) m m' where
  plain := ⟨value.plain, rest.plain⟩
  valid := by rw [cleanMembers, valid, value.valid, rest.valid]
  decoded := by
    simp only [decodeMembers, value.decoded, Option.bind_eq_bind, Option.bind_some]
    exact rest.decoded

theorem MembersDenote.append {first second : List (GoString × Tree)}
    {m m₁ m₂ : List (GoString × Value)} (front : MembersDenote fl room first m m₁)
    (back : MembersDenote fl room second m₁ m₂) : MembersDenote fl room (first ++ second) m m₂ := by
  obtain ⟨plain, valid, decoded⟩ := front
  induction first generalizing m with
  | nil =>
    cases decoded
    exact back
  | cons entry first ih =>
    obtain ⟨name, t⟩ := entry
    simp only [cleanMembers, cons.injEq, Prod.mk.injEq] at valid
    simp only [decodeMembers, Option.bind_eq_bind, Option.bind_eq_some_iff] at decoded
    obtain ⟨v, decodedValue, decodedRest⟩ := decoded
    exact .cons valid.1.1 ⟨plain.1, valid.1.2, decodedValue⟩ (ih plain.2 valid.2 decodedRest)

variable {m : List (GoString × Value)}

theorem MembersDenote.object
    (denote : MembersDenote fl room members [] m) : Denotes fl (room + 1) (.object members) (.map m) :=
  ⟨denote.plain, by rw [clean, denote.valid], by rw [decode, denote.decoded]; rfl⟩

theorem MembersDenote.read
    (denote : MembersDenote fl (maxNestingDepth - 1) members [] m) :
    (parse (write (.object members))).bind (decodeMap fl) = some m := by
  have whole := denote.object
  rw [parse_write whole.plain, whole.valid, Option.bind_some, decodeMap]
  exact denote.decoded

end Denotation

end Monitor.Json
