import Monitor.Lib.JsonText

/-! # Strings of JSON texts

Valid strings survive writing, and every string read from a text is valid,
whatever bytes the text consists of: ill-formed ones and lone surrogates are
replaced. The second fact is carried from the scanner through the parser and
the decoder.
-/

namespace Monitor.Json

open GoText Utf8 List Option

section Writing

theorem sanitizeLoop_encodeRune {r : Nat} (scalar : Scalar r) (n : Nat) (rest : GoString) :
    sanitizeLoop (n + 1) (encodeRune r ++ rest) = encodeRune r ++ sanitizeLoop n rest := by
  by_cases large : 0x80 ≤ r
  · have sequence := encodeRune_sequence scalar large
    have found := sequence.runeLength_append rest
    obtain ⟨c, more, bytes, high⟩ := sequence.head
    rw [bytes] at found ⊢
    rw [cons_append] at found ⊢
    simp only [sanitizeLoop, if_neg high, found]
    rw [← cons_append, take_left, drop_left]
  · obtain ⟨c, bytes, low, _⟩ := encodeRune_small (show r < 0x80 by omega)
    rw [bytes, singleton_append, sanitizeLoop, if_pos low, singleton_append]

theorem sanitizeLoop_encode {runes : List Nat} (scalars : ∀ r ∈ runes, Scalar r) :
    ∀ n, (encode runes).length ≤ n → sanitizeLoop n (encode runes) = encode runes := by
  induction runes with
  | nil => intro n _; cases n <;> rfl
  | cons r runes ih =>
    intro n enough
    have some_ := length_pos_iff.mpr (encodeRune_ne_nil r)
    rw [encode_cons, length_append] at enough
    obtain ⟨n, rfl⟩ : ∃ k, n = k + 1 := ⟨n - 1, by omega⟩
    rw [encode_cons, sanitizeLoop_encodeRune (scalars r mem_cons_self),
      ih (fun x mem => scalars x (mem_cons_of_mem r mem)) n (by omega)]

theorem sanitize_of_valid {s : GoString} (valid : Valid s) : sanitize s = s := by
  obtain ⟨runes, scalars, rfl⟩ := valid
  exact sanitizeLoop_encode scalars _ le_rfl

end Writing

section Scanning

theorem hexDigit_lt {c : UInt8} {n : Nat} (digit : hexDigit c = some n) : n < 16 := by
  have all : ∀ c : UInt8, ∀ n ∈ hexDigit c, n < 16 := by decide +kernel
  exact all c n digit

variable {s : GoString}

theorem hex4_lt {rest : GoString} {r : Nat} (scanned : hex4 s = some (r, rest)) : r < 65536 := by
  match s with
  | a :: b :: c :: d :: more =>
    simp only [hex4, bind_eq_bind, bind_eq_some_iff, some.injEq,
      Prod.mk.injEq] at scanned
    obtain ⟨w, digit, x, digit', y, digit'', z, digit''', rfl, -⟩ := scanned
    have := hexDigit_lt digit
    have := hexDigit_lt digit'
    have := hexDigit_lt digit''
    have := hexDigit_lt digit'''
    omega

theorem valid_replacement : Valid replacement := by
  have rune : encodeRune 0xFFFD = replacement := by decide
  rw [← rune]
  exact valid_encodeRune (by decide)

theorem unicodeEscape_valid {rune rest : GoString}
    (scanned : unicodeEscape s = some (rune, rest)) : Valid rune := by
  simp only [unicodeEscape, bind_eq_bind, bind_eq_some_iff, Prod.exists] at scanned
  obtain ⟨r, behind, first, scanned⟩ := scanned
  have bound := hex4_lt first
  split at scanned
  · split at scanned
    · split at scanned
      · rename_i second
        split at scanned
        · rw [some.injEq, Prod.mk.injEq] at scanned
          rw [← scanned.1]
          refine valid_encodeRune ?_
          rw [Scalar]
          omega
        · cases scanned
          exact valid_replacement
      · cases scanned
        exact valid_replacement
    · cases scanned
      exact valid_replacement
  · rw [some.injEq, Prod.mk.injEq] at scanned
    rw [← scanned.1]
    refine valid_encodeRune ?_
    rw [Scalar]
    omega

theorem simpleEscape_ascii {e c : UInt8} (known : simpleEscape e = some c) : c < 0x80 := by
  have all : ∀ e : UInt8, (simpleEscape e).all (· < 0x80) := by decide +kernel
  have here := all e
  rw [known] at here
  exact of_decide_eq_true here

theorem valid_cons {c : UInt8} (small : c < 0x80) (valid : Valid s) : Valid (c :: s) :=
  (Valid.of_ascii (s := [c]) (by simpa using small)).append valid

theorem scanString_valid : ∀ {fuel : Nat} {text s rest : GoString},
    scanString fuel text = some (s, rest) → Valid s := by
  intro fuel
  induction fuel with
  | zero => intro text s rest scanned; cases scanned
  | succ fuel ih =>
    intro text s rest scanned
    cases text with
    | nil => cases scanned
    | cons c text =>
      simp only [scanString, bind_eq_bind] at scanned
      split at scanned
      · cases scanned
        exact valid_nil
      split at scanned
      · split at scanned
        · simp only [bind_eq_some_iff, some.injEq, Prod.exists, Prod.mk.injEq]
            at scanned
          obtain ⟨rune, text, escape, s, rest, later, rfl, -⟩ := scanned
          exact (unicodeEscape_valid escape).append (ih later)
        · simp only [bind_eq_some_iff, some.injEq, Prod.exists, Prod.mk.injEq]
            at scanned
          obtain ⟨c, escape, s, rest, later, rfl, -⟩ := scanned
          exact valid_cons (simpleEscape_ascii escape) (ih later)
        · cases scanned
      split at scanned
      · cases scanned
      split at scanned
      · rename_i small
        simp only [bind_eq_some_iff, some.injEq, Prod.exists, Prod.mk.injEq]
          at scanned
        obtain ⟨s, rest, later, rfl, -⟩ := scanned
        exact valid_cons small (ih later)
      split at scanned
      · rename_i n found
        simp only [bind_eq_some_iff, some.injEq, Prod.exists, Prod.mk.injEq]
          at scanned
        obtain ⟨s, rest, later, rfl, -⟩ := scanned
        obtain ⟨scalar, bytes⟩ := (sequence_of_runeLength found).encodes
        rw [← bytes]
        exact (valid_encodeRune scalar).append (ih later)
      · simp only [bind_eq_some_iff, some.injEq, Prod.exists, Prod.mk.injEq]
          at scanned
        obtain ⟨s, rest, later, rfl, -⟩ := scanned
        exact valid_replacement.append (ih later)

end Scanning

section Trees

mutual

/-- All strings of a tree are valid, names of members included. -/
def Tree.Valid : Tree → Prop
  | .null | .bool _ | .number _ => True
  | .string s => Utf8.Valid s
  | .array items => Tree.ValidItems items
  | .object members => Tree.ValidMembers members

def Tree.ValidItems : List Tree → Prop
  | [] => True
  | item :: items => item.Valid ∧ Tree.ValidItems items

def Tree.ValidMembers : List (GoString × Tree) → Prop
  | [] => True
  | (k, v) :: members => Utf8.Valid k ∧ v.Valid ∧ Tree.ValidMembers members

end

/-- What the parser reads with some fuel has valid strings. -/
structure ReadsValid (fuel : Nat) : Prop where
  value : ∀ {depth text t rest}, parseValue fuel depth text = some (t, rest) → t.Valid
  items : ∀ {depth text items rest}, parseItems fuel depth text = some (items, rest) →
    Tree.ValidItems items
  members : ∀ {depth text members rest}, parseMembers fuel depth text = some (members, rest) →
    Tree.ValidMembers members

variable {fuel depth : Nat} {text rest : GoString}

theorem ReadsValid.value_succ (reads : ReadsValid fuel)
    {t : Tree} (parsed : parseValue (fuel + 1) depth text = some (t, rest)) : t.Valid := by
  simp only [parseValue] at parsed
  split at parsed
  · cases parsed
  split at parsed
  · obtain ⟨⟨s, behind⟩, scanned, same⟩ := map_eq_some_iff.mp parsed
    cases same
    exact scanString_valid scanned
  split at parsed
  · split at parsed
    · cases parsed
    split at parsed
    · cases parsed
      trivial
    · obtain ⟨⟨list, behind⟩, scanned, same⟩ := map_eq_some_iff.mp parsed
      cases same
      exact reads.items scanned
  split at parsed
  · split at parsed
    · cases parsed
    split at parsed
    · cases parsed
      trivial
    · obtain ⟨⟨list, behind⟩, scanned, same⟩ := map_eq_some_iff.mp parsed
      cases same
      exact reads.members scanned
  split at parsed
  · rename_i literal found
    cases parsed
    have known := mem_of_find?_eq_some found
    simp only [literals, mem_cons, Prod.mk.injEq, not_mem_nil, or_false] at known
    rcases known with ⟨-, rfl⟩ | ⟨-, rfl⟩ | ⟨-, rfl⟩
    all_goals trivial
  · obtain ⟨⟨n, behind⟩, scanned, same⟩ := map_eq_some_iff.mp parsed
    cases same
    trivial

theorem ReadsValid.items_succ (reads : ReadsValid fuel)
    {items : List Tree} (parsed : parseItems (fuel + 1) depth text = some (items, rest)) :
    Tree.ValidItems items := by
  simp only [parseItems, bind_eq_bind, bind_eq_some_iff, Prod.exists] at parsed
  obtain ⟨item, behind, first, parsed⟩ := parsed
  split at parsed
  · simp only [bind_eq_some_iff, some.injEq, Prod.exists, Prod.mk.injEq] at parsed
    obtain ⟨list, behind, later, rfl, -⟩ := parsed
    exact ⟨reads.value first, reads.items later⟩
  · cases parsed
    exact ⟨reads.value first, trivial⟩
  · cases parsed

theorem ReadsValid.members_succ (reads : ReadsValid fuel)
    {members : List (GoString × Tree)}
    (parsed : parseMembers (fuel + 1) depth text = some (members, rest)) : Tree.ValidMembers members := by
  simp only [parseMembers] at parsed
  split at parsed
  · simp only [bind_eq_bind, bind_eq_some_iff, Prod.exists] at parsed
    obtain ⟨name, behind, scanned, parsed⟩ := parsed
    have valid := scanString_valid scanned
    split at parsed
    · simp only [bind_eq_some_iff, Prod.exists] at parsed
      obtain ⟨v, behind, first, parsed⟩ := parsed
      split at parsed
      · simp only [bind_eq_some_iff, some.injEq, Prod.exists, Prod.mk.injEq] at parsed
        obtain ⟨list, behind, later, rfl, -⟩ := parsed
        exact ⟨valid, reads.value first, reads.members later⟩
      · cases parsed
        exact ⟨valid, reads.value first, trivial⟩
      · cases parsed
    · cases parsed
  · cases parsed

theorem readsValid (fuel : Nat) : ReadsValid fuel := by
  induction fuel with
  | zero =>
    refine ⟨?_, ?_, ?_⟩
    all_goals
      intro depth text t rest parsed
      simp [parseValue, parseItems, parseMembers] at parsed
  | succ fuel ih => exact ⟨ih.value_succ, ih.items_succ, ih.members_succ⟩

theorem parse_valid {text : GoString} {t : Tree} (parsed : parse text = some t) : t.Valid := by
  rw [parse] at parsed
  split at parsed
  · rename_i value rest first
    split at parsed
    · cases parsed
      exact (readsValid _).value first
    · cases parsed
  · cases parsed

end Trees

section Values

mutual

/-- All strings that a decoded value holds are valid. -/
def Value.Valid : Value → Prop
  | .nil | .bool _ | .float _ => True
  | .string s => Utf8.Valid s
  | .slice items => Value.ValidItems items
  | .map members => Value.ValidMembers members

def Value.ValidItems : List Value → Prop
  | [] => True
  | item :: items => item.Valid ∧ Value.ValidItems items

def Value.ValidMembers : List (GoString × Value) → Prop
  | [] => True
  | (_, v) :: members => v.Valid ∧ Value.ValidMembers members

end

theorem Value.validItems_iff (items : List Value) : Value.ValidItems items ↔ ∀ v ∈ items, v.Valid := by
  induction items with
  | nil => simp [Value.ValidItems]
  | cons v items ih => simp [Value.ValidItems, ih]

theorem Value.validMembers_iff (members : List (GoString × Value)) :
    Value.ValidMembers members ↔ ∀ mem ∈ members, mem.2.Valid := by
  induction members with
  | nil => simp [Value.ValidMembers]
  | cons mem members ih => simp [Value.ValidMembers, ih]

variable {fl : Floats}

mutual

theorem decode_valid {t : Tree} {v : Value} (valid : t.Valid) (decoded : decode fl t = some v) :
    v.Valid := by
  cases t with
  | null | bool b =>
    cases decoded
    trivial
  | number n =>
    obtain ⟨x, _, rfl⟩ := map_eq_some_iff.mp decoded
    trivial
  | string s =>
    cases decoded
    exact valid
  | array items =>
    obtain ⟨vs, each, rfl⟩ := map_eq_some_iff.mp decoded
    exact decodeItems_valid valid each
  | object members =>
    obtain ⟨m, each, rfl⟩ := map_eq_some_iff.mp decoded
    exact decodeMembers_valid valid (m := []) trivial each

theorem decodeItems_valid {items : List Tree} {vs : List Value} (valid : Tree.ValidItems items)
    (decoded : decodeItems fl items = some vs) : Value.ValidItems vs := by
  cases items with
  | nil =>
    cases decoded
    trivial
  | cons item items =>
    simp only [decodeItems, bind_eq_bind, bind_eq_some_iff, some.injEq]
      at decoded
    obtain ⟨v, first, vs, later, rfl⟩ := decoded
    exact ⟨decode_valid valid.1 first, decodeItems_valid valid.2 later⟩

theorem decodeMembers_valid {members : List (GoString × Tree)} {m m' : List (GoString × Value)}
    (valid : Tree.ValidMembers members) (valid' : Value.ValidMembers m)
    (decoded : decodeMembers fl members m = some m') : Value.ValidMembers m' := by
  cases members with
  | nil =>
    cases decoded
    exact valid'
  | cons mem members =>
    obtain ⟨k, t⟩ := mem
    simp only [decodeMembers, bind_eq_bind, bind_eq_some_iff] at decoded
    obtain ⟨v, first, later⟩ := decoded
    refine decodeMembers_valid valid.2.2 ?_ later
    rw [Value.validMembers_iff] at valid' ⊢
    intro entry mem
    rcases mem_setKey mem with rfl | old
    · exact decode_valid valid.2.1 first
    · exact valid' entry old

end

variable {m : List (GoString × Value)}

theorem decodeMap_valid {text : GoString}
    (decoded : (parse text).bind (decodeMap fl) = some m) : Value.ValidMembers m := by
  obtain ⟨t, parsed, decoded⟩ := bind_eq_some_iff.mp decoded
  have valid := parse_valid parsed
  cases t with
  | null =>
    cases decoded
    trivial
  | object members => exact decodeMembers_valid valid (m := []) trivial decoded
  | bool b | number n | string s | array items => cases decoded

theorem stringField_valid (valid : Value.ValidMembers m)
    (k : GoString) : Utf8.Valid (stringField m k) := by
  rw [stringField]
  split
  · rename_i s found
    exact (Value.validMembers_iff m).mp valid _ (mem_of_getKey found)
  · exact valid_nil

end Values

section Bytes

theorem base64Char_spec : ∀ n < 64, base64Digit (base64Char n) = some n ∧ base64Char n ≠ 61 ∧
    base64Char n ≠ 10 ∧ base64Char n ≠ 13 ∧ base64Char n < 0x80 := by
  decide +kernel

theorem base64Groups_encode (data : GoString) : base64Groups (encodeBase64 data) = some data := by
  fun_induction encodeBase64 data with
  | case1 => rfl
  | case2 a =>
    have := a.toNat_lt
    simp only [base64Groups, (base64Char_spec (a.toNat / 4) (by omega)).1,
      (base64Char_spec (a.toNat % 4 * 16) (by omega)).1, bind_eq_bind, bind_some,
      if_true, isEmpty_nil]
    rw [ofNat_eq (b := a) (by omega)]
  | case3 a b =>
    have := a.toNat_lt
    have := b.toNat_lt
    have last := base64Char_spec (b.toNat % 16 * 4) (by omega)
    simp only [base64Groups, (base64Char_spec (a.toNat / 4) (by omega)).1,
      (base64Char_spec (a.toNat % 4 * 16 + b.toNat / 16) (by omega)).1, last.1,
      if_neg last.2.1, bind_eq_bind, bind_some, if_true, isEmpty_nil]
    rw [ofNat_eq (b := a) (by omega), ofNat_eq (b := b) (by omega)]
  | case4 a b c rest ih =>
    have := a.toNat_lt
    have := b.toNat_lt
    have := c.toNat_lt
    have last := base64Char_spec (c.toNat % 64) (by omega)
    simp only [base64Groups, (base64Char_spec (a.toNat / 4) (by omega)).1,
      (base64Char_spec (a.toNat % 4 * 16 + b.toNat / 16) (by omega)).1,
      (base64Char_spec (b.toNat % 16 * 4 + c.toNat / 64) (by omega)).1, last.1,
      if_neg last.2.1, ih, bind_eq_bind, bind_some]
    rw [ofNat_eq (b := a) (by omega), ofNat_eq (b := b) (by omega), ofNat_eq (b := c) (by omega)]

theorem mem_encodeBase64 {data : GoString} {c : UInt8} (mem : c ∈ encodeBase64 data) :
    c ≠ 10 ∧ c ≠ 13 ∧ c < 0x80 := by
  have char {n : Nat} (small : n < 64) (same : c = base64Char n) : c ≠ 10 ∧ c ≠ 13 ∧ c < 0x80 := by
    rw [same]
    exact (base64Char_spec n small).2.2
  have padding (same : c = 61) : c ≠ 10 ∧ c ≠ 13 ∧ c < 0x80 := by
    rw [same]
    decide
  fun_induction encodeBase64 data with
  | case1 => cases mem
  | case2 a =>
    have := a.toNat_lt
    simp only [mem_cons, not_mem_nil, or_false] at mem
    rcases mem with same | same | same | same
    · exact char (by omega) same
    · exact char (by omega) same
    · exact padding same
    · exact padding same
  | case3 a b =>
    have := a.toNat_lt
    have := b.toNat_lt
    simp only [mem_cons, not_mem_nil, or_false] at mem
    rcases mem with same | same | same | same
    · exact char (by omega) same
    · exact char (by omega) same
    · exact char (by omega) same
    · exact padding same
  | case4 a b c' rest ih =>
    have := a.toNat_lt
    have := b.toNat_lt
    have := c'.toNat_lt
    simp only [mem_cons] at mem
    rcases mem with same | same | same | same | later
    · exact char (by omega) same
    · exact char (by omega) same
    · exact char (by omega) same
    · exact char (by omega) same
    · exact ih later

theorem decodeBase64_encodeBase64 (data : GoString) : decodeBase64 (encodeBase64 data) = some data := by
  have kept : (encodeBase64 data).filter (fun c => c ≠ 10 ∧ c ≠ 13) = encodeBase64 data := by
    rw [filter_eq_self]
    intro c mem
    obtain ⟨first, second, _⟩ := mem_encodeBase64 mem
    simp [first, second]
  rw [decodeBase64, kept, base64Groups_encode]

theorem encodeBase64_valid (data : GoString) : Utf8.Valid (encodeBase64 data) :=
  .of_ascii fun _ mem => (mem_encodeBase64 mem).2.2

end Bytes

end Monitor.Json
