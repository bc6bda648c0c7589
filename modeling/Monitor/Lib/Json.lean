import Monitor.Lib.GoText

/-! # JSON as the Go standard library reads and writes it

Texts are parsed to trees that keep number literals as written, trees are decoded to
the dynamic values of an empty interface, and dynamic values are written back. A map
is a list of members in the order of their keys, without repetition, so equal maps are
equal lists. Conversions between literals and `float64` are a parameter.
-/

namespace Monitor.Json

open GoText List

/-- The bit pattern of a `float64`. -/
abbrev Float64 := BitVec 64

inductive Tree where
  | null
  | bool (b : Bool)
  | number (literal : GoString)
  | string (s : GoString)
  | array (items : List Tree)
  | object (members : List (GoString × Tree))

inductive Value where
  | nil
  | bool (b : Bool)
  | float (x : Float64)
  | string (s : GoString)
  | slice (items : List Value)
  | map (members : List (GoString × Value))

structure Floats where
  /-- `strconv.ParseFloat`; there is no result for a literal out of range. -/
  parse : GoString → Option Float64
  format : Float64 → GoString
  /-- The conversion to `int64`. -/
  truncate : Float64 → Int

/-- Conversions for texts without numbers. -/
def noFloats : Floats where
  parse := fun _ => none
  format := fun _ => ascii "0"
  truncate := fun _ => 0

/-- The `float64` nearest to an integer of 64 bits; of two, the one with an even significand. -/
def floatOfInt (z : Int) : Float64 :=
  let exponent := z.natAbs.log2
  let ulp := 2 ^ (exponent - 52)
  let significand := z.natAbs <<< (52 - exponent) / ulp
  let rest := 2 * (z.natAbs % ulp)
  let up := if ulp < rest ∨ ulp = rest ∧ significand % 2 = 1 then 1 else 0
  -- a carry out of the significand is one more in the exponent
  if z = 0 then 0
  else .ofNat 64 ((if z < 0 then 2 ^ 63 else 0) + (exponent + 1022) * 2 ^ 52 + significand + up)

/-- A finite `float64` without its fraction. -/
def truncateFloat (x : Float64) : Int :=
  let exponent := x.toNat / 2 ^ 52 % 2 ^ 11
  let n := (2 ^ 52 + x.toNat % 2 ^ 52) <<< (exponent - 1075) >>> (1075 - exponent)
  if x.msb then -n else n

/-- Conversions for texts in which all numbers are integers. -/
def integerFloats : Floats where
  parse := fun literal => (parseInt64 literal).map floatOfInt
  format := fun x => itoa (truncateFloat x)
  truncate := truncateFloat

example : floatOfInt 1 = 0x3FF0000000000000#64 ∧ floatOfInt (-5) = 0xC014000000000000#64 ∧
    truncateFloat (floatOfInt (-5)) = -5 ∧ floatOfInt (2 ^ 53 + 3) = floatOfInt (2 ^ 53 + 4) ∧
      floatOfInt (2 ^ 63 - 1) = 0x43E0000000000000#64 := by decide

section Maps

variable {α : Type}

def getKey (k : GoString) (m : List (GoString × α)) : Option α := (m.find? (·.1 = k)).map (·.2)

def setKey (k : GoString) (v : α) : List (GoString × α) → List (GoString × α)
  | [] => [(k, v)]
  | (k', v') :: rest =>
    if k = k' then
      (k, v) :: rest
    else if before k k' then
      (k, v) :: (k', v') :: rest
    else
      (k', v') :: setKey k v rest

theorem getKey_cons (k : GoString) (entry : GoString × α) (m : List (GoString × α)) :
    getKey k (entry :: m) = if entry.1 = k then some entry.2 else getKey k m := by
  simp only [getKey, find?_cons]
  split <;> simp_all

variable {k : GoString} {m : List (GoString × α)} {v : α}

theorem mem_of_getKey (found : getKey k m = some v) : (k, v) ∈ m := by
  obtain ⟨entry, at_, rfl⟩ := Option.map_eq_some_iff.mp found
  obtain rfl : entry.1 = k := by simpa using find?_some at_
  exact mem_of_find?_eq_some at_

variable {entry : GoString × α}

theorem mem_setKey {name : GoString}
    (mem : entry ∈ setKey name v m) : entry = (name, v) ∨ entry ∈ m := by
  induction m with
  | nil => exact .inl (mem_singleton.mp mem)
  | cons first m ih =>
    simp only [setKey] at mem
    split at mem
    · exact (mem_cons.mp mem).imp_right (mem_cons_of_mem _)
    · split at mem
      · exact mem_cons.mp mem
      · rcases mem_cons.mp mem with rfl | later
        · exact .inr mem_cons_self
        · exact (ih later).imp_right (mem_cons_of_mem _)

theorem setKey_perm (absent : k ∉ m.map (·.1)) : (setKey k v m).Perm ((k, v) :: m) := by
  induction m with
  | nil => exact .refl _
  | cons first m ih =>
    simp only [map_cons, mem_cons, not_or] at absent
    simp only [setKey, if_neg absent.1]
    split
    · exact .refl _
    · exact ((ih absent.2).cons first).trans (.swap _ _ _)

theorem getKey_setKey (k name : GoString) (v : α) (m : List (GoString × α)) :
    getKey k (setKey name v m) = if name = k then some v else getKey k m := by
  induction m with
  | nil => exact getKey_cons k (name, v) []
  | cons entry m ih =>
    obtain ⟨k', v'⟩ := entry
    simp only [setKey]
    by_cases same : name = k'
    · subst same
      simp only [if_true, getKey_cons]
      split <;> rfl
    · rw [if_neg same]
      split
      · exact getKey_cons k (name, v) ((k', v') :: m)
      · simp only [getKey_cons, ih]
        by_cases found : k' = k
        · rw [if_pos found, if_neg (fun h => same (h.trans found.symm))]
          simp only [found, if_true]
        · simp only [if_neg found]

theorem getKey_of_not_mem (absent : k ∉ m.map (·.1)) : getKey k m = none := by
  by_contra known
  obtain ⟨v, found⟩ := Option.ne_none_iff_exists'.mp known
  exact absent (mem_map.mpr ⟨_, mem_of_getKey found, rfl⟩)

theorem getKey_append (k : GoString) (m m' : List (GoString × α)) :
    getKey k (m ++ m') = (getKey k m <|> getKey k m') := by
  induction m with
  | nil => rfl
  | cons entry m ih =>
    rw [cons_append, getKey_cons, getKey_cons, ih]
    split <;> rfl

theorem getKey_map {β : Type} {f : GoString → GoString} (injective : Function.Injective f)
    (g : α → β) (k : GoString) (m : List (GoString × α)) :
    getKey (f k) (m.map fun entry => (f entry.1, g entry.2)) = (getKey k m).map g := by
  induction m with
  | nil => rfl
  | cons entry m ih =>
    rw [map_cons, getKey_cons, getKey_cons, ih]
    simp only [injective.eq_iff]
    split <;> rfl

abbrev KeysOrdered (m : List (GoString × α)) : Prop :=
  m.Pairwise fun a b => before a.1 b.1 = true

theorem KeysOrdered.setKey (ordered : KeysOrdered m) (k : GoString)
    (v : α) : KeysOrdered (setKey k v m) := by
  induction m with
  | nil => exact pairwise_singleton _ _
  | cons entry m ih =>
    obtain ⟨above, rest⟩ := pairwise_cons.mp ordered
    simp only [Json.setKey]
    split
    · rename_i same
      subst same
      exact pairwise_cons.mpr ⟨above, rest⟩
    · rename_i other
      split
      · rename_i earlier
        refine pairwise_cons.mpr ⟨fun e mem => ?_, ordered⟩
        rcases mem_cons.mp mem with rfl | later
        · exact earlier
        · exact before_trans earlier (above e later)
      · rename_i notEarlier
        refine pairwise_cons.mpr ⟨fun e mem => ?_, ih rest⟩
        rcases mem_setKey mem with rfl | later
        · exact before_of_not notEarlier other
        · exact above e later

theorem KeysOrdered.getKey_tail
    (ordered : KeysOrdered (entry :: m)) : getKey entry.1 m = none := by
  refine getKey_of_not_mem fun mem => ?_
  obtain ⟨later, lt, same⟩ := mem_map.mp mem
  have less := (pairwise_cons.mp ordered).1 later lt
  rw [same, before_irrefl] at less
  cases less

theorem KeysOrdered.getKey_of_mem
    (ordered : KeysOrdered m) (mem : entry ∈ m) : getKey entry.1 m = some entry.2 := by
  induction m with
  | nil => cases mem
  | cons first m ih =>
    simp only [getKey_cons]
    cases mem_cons.mp mem with
    | inl here => simp only [here, if_true]
    | inr later =>
      have found := ih (pairwise_cons.mp ordered).2 later
      have other : first.1 ≠ entry.1 := by
        intro same
        have absent := ordered.getKey_tail
        rw [same, found] at absent
        cases absent
      simp only [if_neg other, found]

end Maps

/-- The comma-ok assertion to a string, with the zero value on failure. -/
def stringField (m : List (GoString × Value)) (k : GoString) : GoString :=
  match getKey k m with
  | some (.string s) => s
  | _ => []

section Text

def skipSpace (s : GoString) : GoString :=
  s.dropWhile fun c => c = 32 ∨ c = 9 ∨ c = 10 ∨ c = 13

def hexDigit (c : UInt8) : Option Nat :=
  if isDigit c then some (c.toNat - 48)
  else if 97 ≤ c ∧ c ≤ 102 then some (c.toNat - 87)
  else if 65 ≤ c ∧ c ≤ 70 then some (c.toNat - 55)
  else none

def hex4 : GoString → Option (Nat × GoString)
  | a :: b :: c :: d :: rest => do
      let a ← hexDigit a
      let b ← hexDigit b
      let c ← hexDigit c
      let d ← hexDigit d
      some (((a * 16 + b) * 16 + c) * 16 + d, rest)
  | _ => none

def encodeRune (r : Nat) : GoString :=
  if r < 0x80 then [UInt8.ofNat r]
  else if r < 0x800 then [UInt8.ofNat (0xC0 + r / 64), UInt8.ofNat (0x80 + r % 64)]
  else if r < 0x10000 then
    [UInt8.ofNat (0xE0 + r / 4096), UInt8.ofNat (0x80 + r / 64 % 64), UInt8.ofNat (0x80 + r % 64)]
  else
    [UInt8.ofNat (0xF0 + r / 262144), UInt8.ofNat (0x80 + r / 4096 % 64),
      UInt8.ofNat (0x80 + r / 64 % 64), UInt8.ofNat (0x80 + r % 64)]

def replacement : GoString := [0xEF, 0xBF, 0xBD]

def isCont (c : UInt8) : Bool := decide (0x80 ≤ c ∧ c ≤ 0xBF)

/-- The number of bytes of the well-formed multi-byte sequence in front, if there is one. -/
def runeLength : GoString → Option Nat
  | a :: b :: rest =>
    if 0xC2 ≤ a ∧ a ≤ 0xDF then
      if isCont b then some 2 else none
    else
      match rest with
      | [] => none
      | c :: rest =>
        if 0xE0 ≤ a ∧ a ≤ 0xEF then
          if isCont b && isCont c && (a != 0xE0 || decide (0xA0 ≤ b)) &&
              (a != 0xED || decide (b ≤ 0x9F)) then
            some 3
          else
            none
        else
          match rest with
          | [] => none
          | d :: _ =>
            if decide (0xF0 ≤ a ∧ a ≤ 0xF4) && isCont b && isCont c && isCont d &&
                (a != 0xF0 || decide (0x90 ≤ b)) && (a != 0xF4 || decide (b ≤ 0x8F)) then
              some 4
            else
              none
  | _ => none

def simpleEscape (c : UInt8) : Option UInt8 :=
  if c = 34 ∨ c = 92 ∨ c = 47 then some c
  else if c = 98 then some 8
  else if c = 102 then some 12
  else if c = 110 then some 10
  else if c = 114 then some 13
  else if c = 116 then some 9
  else none

/-- The rune of a `\\u` escape, with the second half of a surrogate pair if it follows. -/
def unicodeEscape (s : GoString) : Option (GoString × GoString) := do
  let (r, rest) ← hex4 s
  if 0xD800 ≤ r ∧ r ≤ 0xDFFF then
    match rest with
    | 92 :: 117 :: more =>
      match hex4 more with
      | some (low, rest') =>
        if r ≤ 0xDBFF ∧ 0xDC00 ≤ low ∧ low ≤ 0xDFFF then
          some (encodeRune (0x10000 + (r - 0xD800) * 1024 + (low - 0xDC00)), rest')
        else
          some (replacement, rest)
      | none => some (replacement, rest)
    | _ => some (replacement, rest)
  else
    some (encodeRune r, rest)

/-- The rest of a string literal behind its opening quote, and the text behind its end. -/
def scanString : Nat → GoString → Option (GoString × GoString)
  | 0, _ => none
  | _ + 1, [] => none
  | fuel + 1, c :: rest =>
    if c = 34 then
      some ([], rest)
    else if c = 92 then
      match rest with
      | 117 :: rest => do
          let (rune, rest) ← unicodeEscape rest
          let (s, rest) ← scanString fuel rest
          some (rune ++ s, rest)
      | e :: rest => do
          let e ← simpleEscape e
          let (s, rest) ← scanString fuel rest
          some (e :: s, rest)
      | [] => none
    else if c < 32 then
      none
    else if c < 0x80 then do
      let (s, rest) ← scanString fuel rest
      some (c :: s, rest)
    else
      match runeLength (c :: rest) with
      | some n => do
          let (s, rest') ← scanString fuel ((c :: rest).drop n)
          some ((c :: rest).take n ++ s, rest')
      | none => do
          let (s, rest) ← scanString fuel rest
          some (replacement ++ s, rest)

def scanDigits (s : GoString) : Option (GoString × GoString) :=
  let (digits, rest) := s.span isDigit
  if digits.isEmpty then none else some (digits, rest)

def scanInteger : GoString → Option (GoString × GoString)
  | 48 :: rest => some ([48], rest)
  | s => scanDigits s

def scanFraction : GoString → Option (GoString × GoString)
  | 46 :: rest => (scanDigits rest).map fun (digits, rest) => (46 :: digits, rest)
  | s => some ([], s)

def scanExponent : GoString → Option (GoString × GoString)
  | e :: sign :: rest =>
    if e = 101 ∨ e = 69 then
      if sign = 43 ∨ sign = 45 then
        (scanDigits rest).map fun (digits, rest) => (e :: sign :: digits, rest)
      else
        (scanDigits (sign :: rest)).map fun (digits, rest) => (e :: digits, rest)
    else
      some ([], e :: sign :: rest)
  | [e] => if e = 101 ∨ e = 69 then none else some ([], [e])
  | [] => some ([], [])

def splitSign : GoString → GoString × GoString
  | 45 :: rest => ([45], rest)
  | s => ([], s)

def scanNumber (s : GoString) : Option (GoString × GoString) := do
  let (sign, s) := splitSign s
  let (integer, s) ← scanInteger s
  let (fraction, s) ← scanFraction s
  let (exponent, s) ← scanExponent s
  some (sign ++ integer ++ fraction ++ exponent, s)

def literals : List (GoString × Tree) :=
  [(ascii "true", .bool true), (ascii "false", .bool false), (ascii "null", .null)]

def maxNestingDepth : Nat := 10000

mutual

/-- One value in front of a text, inside `depth` open containers. -/
def parseValue : Nat → Nat → GoString → Option (Tree × GoString)
  | 0, _, _ => none
  | fuel + 1, depth, s =>
    match skipSpace s with
    | [] => none
    | c :: rest =>
      if c = 34 then
        (scanString (rest.length + 1) rest).map fun (s, rest) => (.string s, rest)
      else if c = 91 then
        if depth = maxNestingDepth then
          none
        else
          match skipSpace rest with
          | 93 :: rest => some (.array [], rest)
          | _ => (parseItems fuel (depth + 1) rest).map fun (items, rest) => (.array items, rest)
      else if c = 123 then
        if depth = maxNestingDepth then
          none
        else
          match skipSpace rest with
          | 125 :: rest => some (.object [], rest)
          | _ =>
            (parseMembers fuel (depth + 1) rest).map fun (members, rest) =>
              (.object members, rest)
      else
        match literals.find? fun l => l.1.isPrefixOf (c :: rest) with
        | some (text, value) => some (value, (c :: rest).drop text.length)
        | none => (scanNumber (c :: rest)).map fun (n, rest) => (.number n, rest)

def parseItems : Nat → Nat → GoString → Option (List Tree × GoString)
  | 0, _, _ => none
  | fuel + 1, depth, s => do
      let (item, s) ← parseValue fuel depth s
      match skipSpace s with
      | 44 :: rest =>
        let (items, rest) ← parseItems fuel depth rest
        some (item :: items, rest)
      | 93 :: rest => some ([item], rest)
      | _ => none

def parseMembers : Nat → Nat → GoString → Option (List (GoString × Tree) × GoString)
  | 0, _, _ => none
  | fuel + 1, depth, s =>
    match skipSpace s with
    | 34 :: rest => do
        let (name, rest) ← scanString (rest.length + 1) rest
        match skipSpace rest with
        | 58 :: rest =>
          let (value, rest) ← parseValue fuel depth rest
          match skipSpace rest with
          | 44 :: rest =>
            let (members, rest) ← parseMembers fuel depth rest
            some ((name, value) :: members, rest)
          | 125 :: rest => some ([(name, value)], rest)
          | _ => none
        | _ => none
    | _ => none

end

/-- The tree of a whole text. Every turn of the parser consumes at least one byte for each two
    units of fuel. -/
def parse (s : GoString) : Option Tree :=
  match parseValue (2 * s.length + 2) 0 s with
  | some (value, rest) => if (skipSpace rest).isEmpty then some value else none
  | none => none

end Text

section Decode

variable (fl : Floats)

mutual

/-- Decoding into an empty interface; it fails on a number out of range. -/
def decode : Tree → Option Value
  | .null => some .nil
  | .bool b => some (.bool b)
  | .number literal => (fl.parse literal).map .float
  | .string s => some (.string s)
  | .array items => (decodeItems items).map .slice
  | .object members => (decodeMembers members []).map .map

def decodeItems : List Tree → Option (List Value)
  | [] => some []
  | item :: items => do
      let item ← decode item
      let items ← decodeItems items
      some (item :: items)

def decodeMembers : List (GoString × Tree) → List (GoString × Value) →
    Option (List (GoString × Value))
  | [], m => some m
  | (k, j) :: members, m => do
      let v ← decode j
      decodeMembers members (setKey k v m)

end

/-- Decoding into a map from strings to empty interfaces. -/
def decodeMap : Tree → Option (List (GoString × Value))
  | .null => some []
  | .object members => decodeMembers fl members []
  | _ => none

/-- Decoding into a 64-bit integer that holds `old`. -/
def decodeInt (old : Int) : Tree → Option Int
  | .null => some old
  | .number literal => parseInt64 literal
  | _ => none

/-- Decoding into a string that holds `old`. -/
def decodeString (old : GoString) : Tree → Option GoString
  | .null => some old
  | .string s => some s
  | _ => none

def base64Digit (c : UInt8) : Option Nat :=
  if 65 ≤ c ∧ c ≤ 90 then some (c.toNat - 65)
  else if 97 ≤ c ∧ c ≤ 122 then some (c.toNat - 71)
  else if isDigit c then some (c.toNat + 4)
  else if c = 43 then some 62
  else if c = 47 then some 63
  else none

def base64Groups : GoString → Option GoString
  | [] => some []
  | a :: b :: c :: d :: rest => do
      let a ← base64Digit a
      let b ← base64Digit b
      let first := UInt8.ofNat (a * 4 + b / 16)
      if d = 61 then
        if rest.isEmpty then
          if c = 61 then
            some [first]
          else
            let c ← base64Digit c
            some [first, UInt8.ofNat (b % 16 * 16 + c / 4)]
        else
          none
      else
        let c ← base64Digit c
        let d ← base64Digit d
        let more ← base64Groups rest
        some (first :: UInt8.ofNat (b % 16 * 16 + c / 4) :: UInt8.ofNat (c % 4 * 64 + d) :: more)
  | _ => none

/-- Standard base64 with padding; line ends are skipped. -/
def decodeBase64 (s : GoString) : Option GoString :=
  base64Groups (s.filter fun c => c ≠ 10 ∧ c ≠ 13)

def decodeByte (old : UInt8) : Tree → Option UInt8
  | .null => some old
  | .number literal => (parseNat literal).bind fun n => if n < 256 then some (UInt8.ofNat n) else none
  | _ => none

def decodeByteItems : GoString → List Tree → Option GoString
  | _, [] => some []
  | old, item :: items => do
      let b ← decodeByte (old.headD 0) item
      let bs ← decodeByteItems old.tail items
      some (b :: bs)

/-- Decoding into a byte slice that holds `old`: base64 text, or an array of small numbers. -/
def decodeBytes (old : GoString) : Tree → Option GoString
  | .null => some []
  | .string s => decodeBase64 s
  | .array items => decodeByteItems old items
  | _ => none

/-- Decoding into a map that holds `old`; an object adds to it. -/
def decodeMapInto (old : List (GoString × Value)) : Tree → Option (List (GoString × Value))
  | .null => some []
  | .object members => decodeMembers fl members old
  | _ => none

/-- The letters a field name is compared by: case does not count, and two letters beyond ASCII
    fold into it. -/
def foldName : GoString → GoString
  | 0xE2 :: 0x84 :: 0xAA :: rest => 75 :: foldName rest
  | 0xC5 :: 0xBF :: rest => 83 :: foldName rest
  | c :: rest => (if 97 ≤ c ∧ c ≤ 122 then c - 32 else c) :: foldName rest
  | [] => []

/-- Whether a member of a JSON object belongs to a field, up to case. -/
def isField (name : GoString) (field : String) : Bool := foldName name == foldName (ascii field)

/-- Decoding into a struct that is `zero`, member by member. -/
def decodeStruct {α : Type} (zero : α) (member : α → GoString × Tree → Option α) :
    Tree → Option α
  | .null => some zero
  | .object members => members.foldlM member zero
  | _ => none

end Decode

section Encode

variable (fl : Floats)

def hexLower (n : Nat) : UInt8 := UInt8.ofNat (if n < 10 then 48 + n else 87 + n)

def escapeByte (c : UInt8) : GoString :=
  if c = 34 ∨ c = 92 then [92, c]
  else if c = 8 then ascii "\\b"
  else if c = 12 then ascii "\\f"
  else if c = 10 then ascii "\\n"
  else if c = 13 then ascii "\\r"
  else if c = 9 then ascii "\\t"
  else if c < 32 ∨ c = 60 ∨ c = 62 ∨ c = 38 then
    ascii "\\u00" ++ [hexLower (c.toNat / 16), hexLower (c.toNat % 16)]
  else [c]

/-- The text of one sequence beyond ASCII; the two line separators are escaped. -/
def escapeRune (rune : GoString) : GoString :=
  if rune = [0xE2, 0x80, 0xA8] then ascii "\\u2028"
  else if rune = [0xE2, 0x80, 0xA9] then ascii "\\u2029"
  else rune

def escapeString : Nat → GoString → GoString
  | 0, _ => []
  | _ + 1, [] => []
  | fuel + 1, c :: rest =>
    if c < 0x80 then
      escapeByte c ++ escapeString fuel rest
    else
      match runeLength (c :: rest) with
      | none => ascii "\\ufffd" ++ escapeString fuel rest
      | some n =>
        escapeRune ((c :: rest).take n) ++ escapeString fuel ((c :: rest).drop n)

def quote (s : GoString) : GoString := 34 :: escapeString s.length s ++ [34]

def commaSeparated : List GoString → GoString
  | [] => []
  | [s] => s
  | s :: rest => s ++ 44 :: commaSeparated rest

mutual

def write : Tree → GoString
  | .null => ascii "null"
  | .bool b => ascii (if b then "true" else "false")
  | .number literal => literal
  | .string s => quote s
  | .array items => 91 :: commaSeparated (writeItems items) ++ [93]
  | .object members => 123 :: commaSeparated (writeMembers members) ++ [125]

def writeItems : List Tree → List GoString
  | [] => []
  | item :: items => write item :: writeItems items

def writeMembers : List (GoString × Tree) → List GoString
  | [] => []
  | (k, v) :: members => (quote k ++ 58 :: write v) :: writeMembers members

end

mutual

def treeOf : Value → Tree
  | .nil => .null
  | .bool b => .bool b
  | .float x => .number (fl.format x)
  | .string s => .string s
  | .slice items => .array (treeOfItems items)
  | .map members => .object (treeOfMembers members)

def treeOfItems : List Value → List Tree
  | [] => []
  | item :: items => treeOf item :: treeOfItems items

def treeOfMembers : List (GoString × Value) → List (GoString × Tree)
  | [] => []
  | (k, v) :: members => (k, treeOf v) :: treeOfMembers members

end

def base64Char (n : Nat) : UInt8 :=
  UInt8.ofNat (if n < 26 then n + 65 else if n < 52 then n + 71 else if n < 62 then n - 4
    else if n = 62 then 43 else 47)

def encodeBase64 : GoString → GoString
  | [] => []
  | [a] => [base64Char (a.toNat / 4), base64Char (a.toNat % 4 * 16), 61, 61]
  | [a, b] =>
    [base64Char (a.toNat / 4), base64Char (a.toNat % 4 * 16 + b.toNat / 16),
      base64Char (b.toNat % 16 * 4), 61]
  | a :: b :: c :: rest =>
    base64Char (a.toNat / 4) :: base64Char (a.toNat % 4 * 16 + b.toNat / 16) ::
      base64Char (b.toNat % 16 * 4 + c.toNat / 64) :: base64Char (c.toNat % 64) ::
      encodeBase64 rest

/-- `json.Marshal` of a byte slice. -/
def marshalBytes (data : GoString) : GoString := write (.string (encodeBase64 data))

/-- `json.Marshal` of a dynamic value. -/
def marshal (v : Value) : GoString := write (treeOf fl v)

end Encode

end Monitor.Json
