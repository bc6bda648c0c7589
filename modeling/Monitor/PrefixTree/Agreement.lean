import Monitor.PrefixTree.FiniteMap
import Monitor.PrefixTree.Patricia

/-! # When the two prefix trees agree

Both trees after the same insertions. The plain tree remembers the last value of every
key. The compressed one remembers, for every first byte, only the last key that begins
with it, since an insertion at the root replaces the whole branch (`insertNode_root`).
-/

namespace Monitor.PrefixTree

open GoText Utf8 List GoMap UInt8

variable {V : Type}

/-- A call of `Insert` with a non-empty ASCII key, on either tree. -/
structure Insertion (V : Type) where
  first : UInt8
  rest : GoString
  value : Option V
  small : ∀ b ∈ first :: rest, b < 0x80

namespace Insertion

def key (c : Insertion V) : GoString := c.first :: c.rest

end Insertion

def trieOf (calls : List (Insertion V)) : Trie V :=
  calls.foldl (fun t c => t.insert c.key c.value) Trie.newTrie

def patriciaOf (calls : List (Insertion V)) : PatriciaTrie V :=
  calls.foldl (fun pt c => pt.insert c.key c.value) PatriciaTrie.newPatriciaTrie

/-- `Search` and `StartsWith` answer alike on every string, valid or not. -/
def Agree (pt : PatriciaTrie V) (t : Trie V) : Prop :=
  (∀ key, pt.search key = t.search key) ∧ ∀ start, pt.startsWith start = t.startsWith start

def FirstsApart (calls : List (Insertion V)) : Prop :=
  ∀ a ∈ calls, ∀ b ∈ calls, a.first = b.first → a.key = b.key

/-- The last call that satisfies `p`. -/
def latest (p : Insertion V → Bool) (calls : List (Insertion V)) : Option (Insertion V) :=
  calls.reverse.find? p

theorem latest_concat (p : Insertion V → Bool) (calls : List (Insertion V)) (c : Insertion V) :
    latest p (calls ++ [c]) = if p c then some c else latest p calls := by
  simp only [latest, reverse_append, reverse_singleton, singleton_append, find?_cons]
  cases p c <;> rfl

variable {c : Insertion V} {calls : List (Insertion V)} {p : Insertion V → Bool}

theorem latest_spec
    (found : latest p calls = some c) : c ∈ calls ∧ p c = true :=
  ⟨mem_reverse.mp (mem_of_find?_eq_some found), find?_some found⟩

theorem latest_isSome
    (mem : c ∈ calls) (holds : p c = true) : ∃ d, latest p calls = some d :=
  Option.isSome_iff_exists.mp (find?_isSome.mpr ⟨c, mem_reverse.mpr mem, holds⟩)

theorem latest_none {b : UInt8} (found : latest (fun c => c.first = b) calls = none) (mem : c ∈ calls) :
    c.first ≠ b := by
  simpa using find?_eq_none.mp found c (mem_reverse.mpr mem)

theorem patriciaOf_root (calls : List (Insertion V)) :
    ∃ children, (patriciaOf calls).root = .mk [] children false none ∧
      ∀ b : UInt8, get b.toNat children =
        (latest (fun c => c.first = b) calls).map fun c => .leaf c.key c.value := by
  induction calls using reverseRecOn with
  | nil => exact ⟨[], rfl, fun _ => rfl⟩
  | append_singleton calls c ih =>
    obtain ⟨children, root, holds⟩ := ih
    have step : (patriciaOf (calls ++ [c])).root = insertNode c.value (patriciaOf calls).root c.key := by
      simp only [patriciaOf, foldl_append, foldl_cons, foldl_nil, PatriciaTrie.insert]
    simp only [root, Insertion.key, insertNode_root] at step
    exact ⟨_, step, fun b => by
      simp only [GoMap.get_set, holds b, latest_concat, decide_eq_true_eq, UInt8.toNat_inj]
      split <;> rfl⟩

theorem search_patriciaOf (calls : List (Insertion V)) (b : UInt8) (rest : GoString) :
    (patriciaOf calls).search (b :: rest) =
      match latest (fun c => c.first = b) calls with
      | none => (none, false)
      | some c => if b :: rest = c.key then (c.value, true) else (none, false) := by
  obtain ⟨children, root, holds⟩ := patriciaOf_root calls
  simp only [PatriciaTrie.search, root, searchNode, cons_ne_nil, if_false, isPrefixOf_nil_left,
    if_true, length_nil, drop_zero, searchChild_eq, holds]
  cases latest (fun c => c.first = b) calls with
  | none => rfl
  | some c => exact searchNode_leaf (cons_ne_nil b rest) c.key c.value

theorem startsWith_patriciaOf (calls : List (Insertion V)) (b : UInt8) (rest : GoString) :
    (patriciaOf calls).startsWith (b :: rest) =
      match latest (fun c => c.first = b) calls with
      | none => false
      | some c => (b :: rest).isPrefixOf c.key := by
  obtain ⟨children, root, holds⟩ := patriciaOf_root calls
  simp only [PatriciaTrie.startsWith, root, startsWithNode, cons_ne_nil, if_false,
    isPrefixOf_nil_left, if_true, length_nil, drop_zero, startsWithChild_eq, holds]
  cases latest (fun c => c.first = b) calls with
  | none => rfl
  | some c => exact startsWithNode_leaf (cons_ne_nil b rest) c.key c.value

variable {key : GoString}

theorem runesOf_ascii (small : ∀ b ∈ key, b < 0x80) :
    runesOf key = key.map toNat := by
  obtain ⟨scalars, same⟩ := encode_ascii small
  have runes := runesOf_encode scalars
  rwa [same] at runes

theorem runesLoop_large {c : UInt8} (large : ¬ c < 0x80) (fuel : Nat) (rest : GoString) :
    ∃ r more, runesLoop (fuel + 1) (c :: rest) = r :: more ∧ 0x80 ≤ r := by
  simp only [runesLoop, if_neg large]
  cases found : Json.runeLength (c :: rest) with
  | none => exact ⟨_, _, rfl, by decide⟩
  | some n =>
    refine ⟨_, _, rfl, ?_⟩
    by_contra small
    -- the encoding of a smaller rune would be a single ASCII byte
    have sequence := sequence_of_runeLength found
    obtain ⟨b, bytes, low, _⟩ := encodeRune_small (Nat.lt_of_not_le small)
    have length := sequence.two_le_length
    rw [← sequence.encodes.2, bytes] at length
    simp at length

theorem runesLoop_prefix (small : ∀ b ∈ key, b < 0x80) :
    ∀ (n : Nat) (start : GoString), start.length ≤ n →
      (runesLoop n start <+: key.map toNat ↔ start <+: key) := by
  induction key with
  | nil =>
    intro n start enough
    cases start with
    | nil => cases n <;> simp [runesLoop]
    | cons c start =>
      obtain ⟨n, rfl⟩ : ∃ k, n = k + 1 := ⟨n - 1, by simp at enough; omega⟩
      by_cases low : c < 0x80
      · simp [runesLoop, low]
      · obtain ⟨r, more, runes, _⟩ := runesLoop_large low n start
        simp [runes]
  | cons d key ih =>
    intro n start enough
    cases start with
    | nil => cases n <;> simp [runesLoop]
    | cons c start =>
      obtain ⟨n, rfl⟩ : ∃ k, n = k + 1 := ⟨n - 1, by simp at enough; omega⟩
      have bound : d.toNat < 0x80 := small d mem_cons_self
      by_cases low : c < 0x80
      · simp only [runesLoop, if_pos low, map_cons, cons_prefix_cons, UInt8.toNat_inj]
        simp only [ih (fun b mem => small b (mem_cons_of_mem d mem)) n start (by simp at enough; omega)]
      · obtain ⟨r, more, runes, large⟩ := runesLoop_large low n start
        simp only [runes, map_cons, cons_prefix_cons]
        constructor
        · intro begins
          omega
        · intro begins
          exact absurd (begins.1 ▸ small d mem_cons_self) low

theorem runesOf_start (c : Insertion V) (start : GoString) :
    runesOf start <+: c.key.map toNat ↔ start <+: c.key :=
  runesLoop_prefix c.small _ start le_rfl

theorem runesOf_eq_ascii_iff (small : ∀ b ∈ key, b < 0x80) (start : GoString) :
    runesOf start = key.map toNat ↔ start = key := by
  constructor
  · intro same
    have walked := runesLoop_prefix small _ start le_rfl
    have starts := walked.mp (same ▸ prefix_rfl)
    have small' : ∀ b ∈ start, b < 0x80 := fun b mem => small b (starts.subset mem)
    have length := congrArg length same
    simp only [runesOf_ascii small', length_map] at length
    exact starts.eq_of_length length
  · intro same
    subst same
    exact runesOf_ascii small

theorem runesOf_eq_iff (c : Insertion V) (key : GoString) :
    runesOf key = c.key.map toNat ↔ key = c.key :=
  runesOf_eq_ascii_iff c.small key

theorem descend_insertRunes (v : Option V) (key path : List Nat) (node : TrieNode V) :
    (descend path (insertRunes v key node)).isSome = true ↔
      path <+: key ∨ (descend path node).isSome = true := by
  induction key generalizing path node with
  | nil =>
    cases node with
    | mk children isEnd value =>
      cases path with
      | nil => simp [insertRunes, descend]
      | cons ch path => simp [insertRunes, descend]
  | cons c key ih =>
    cases node with
    | mk children isEnd value =>
      cases path with
      | nil => simp [insertRunes, descend]
      | cons ch path =>
        simp only [insertRunes, descend, get_set, cons_prefix_cons]
        by_cases same : c = ch
        · subst same
          simp only [if_true, ih, true_and]
          cases get c children with
          | some child => rfl
          | none =>
            cases path with
            | nil => simp
            | cons ch path => simp [newNode, descend, GoMap.get]
        · simp only [if_neg same, Ne.symm same, false_and, false_or]

section

variable (calls : List (Insertion V))

theorem trieOf_concat (c : Insertion V) : (trieOf (calls ++ [c])).root =
      insertRunes c.value (c.key.map toNat) (trieOf calls).root := by
  simp only [trieOf, foldl_append, foldl_cons, foldl_nil, Trie.insert]
  rw [show runesOf c.key = c.key.map toNat from runesOf_ascii c.small]

theorem tidy_trieOf : Tidy (trieOf calls).root := by
  induction calls using reverseRecOn with
  | nil => exact tidy_newNode
  | append_singleton calls c ih =>
    rw [trieOf_concat]
    exact ih.insertRunes c.value _

theorem valueAt_trieOf (key : GoString) : valueAt (runesOf key) (trieOf calls).root =
      (latest (fun c => c.key = key) calls).map Insertion.value := by
  induction calls using reverseRecOn with
  | nil => exact valueAt_newNode _
  | append_singleton calls c ih =>
    simp only [trieOf_concat, valueAt_insertRunes, runesOf_eq_iff, ih, latest_concat, decide_eq_true_eq]
    by_cases same : key = c.key
    · simp only [same, if_true, Option.map_some]
    · simp only [if_neg same, if_neg (Ne.symm same)]

theorem search_trieOf (key : GoString) : (trieOf calls).search key =
      match latest (fun c => c.key = key) calls with
      | none => (none, false)
      | some c => (c.value, true) := by
  rw [(tidy_trieOf calls).search, valueAt_trieOf]
  cases latest (fun c => c.key = key) calls <;> rfl

theorem startsWith_trieOf {start : GoString} (ne : start ≠ []) :
    (trieOf calls).startsWith start = true ↔ ∃ c ∈ calls, start <+: c.key := by
  induction calls using reverseRecOn with
  | nil =>
    cases start with
    | nil => exact absurd rfl ne
    | cons b start =>
      have nothing : ∃ r more, runesOf (b :: start) = r :: more := by
        by_cases low : b < 0x80
        · exact ⟨b.toNat, runesLoop start.length start, by
            simp only [runesOf, length_cons, runesLoop, if_pos low]⟩
        · obtain ⟨r, more, runes, _⟩ := runesLoop_large low start.length start
          exact ⟨r, more, runes⟩
      obtain ⟨r, more, runes⟩ := nothing
      simp [Trie.startsWith, trieOf, Trie.newTrie, newNode, runes, descend, GoMap.get]
  | append_singleton calls c ih =>
    simp only [Trie.startsWith, trieOf_concat, descend_insertRunes, runesOf_start] at ih ⊢
    simp only [ih, mem_append, mem_singleton]
    constructor
    · intro either
      cases either with
      | inl here => exact ⟨c, .inr rfl, here⟩
      | inr before =>
        obtain ⟨d, mem, starts⟩ := before
        exact ⟨d, .inl mem, starts⟩
    · intro found
      obtain ⟨d, mem, starts⟩ := found
      cases mem with
      | inl before => exact .inr ⟨d, before, starts⟩
      | inr here => exact .inl (here ▸ starts)

end

section

variable {calls : List (Insertion V)} (apart : FirstsApart calls)
include apart

/-- If the keys are apart by their first bytes, the last call with a first byte is the last call
    with its key. -/
theorem latest_first (found : latest (fun d => d.first = c.first) calls = some c) :
    latest (fun d => d.key = c.key) calls = some c := by
  have same : ∀ d ∈ calls, (decide (d.key = c.key)) = decide (d.first = c.first) := by
    intro d mem
    obtain ⟨listed, _⟩ := latest_spec found
    have iff : d.key = c.key ↔ d.first = c.first :=
      ⟨fun keys => (cons.inj keys).1, fun firsts => apart d mem c listed firsts⟩
    simp only [iff]
  rw [← found]
  exact find?_congr fun d mem => same d (mem_reverse.mp mem)

theorem search_agrees (key : GoString) : (patriciaOf calls).search key = (trieOf calls).search key := by
  rw [search_trieOf]
  cases key with
  | nil =>
    obtain ⟨children, root, _⟩ := patriciaOf_root calls
    have absent : latest (fun c => c.key = []) calls = none := by
      cases found : latest (fun c => c.key = []) calls with
      | none => rfl
      | some c => exact absurd (of_decide_eq_true (latest_spec found).2) (cons_ne_nil _ _)
    simp [PatriciaTrie.search, root, searchNode, absent]
  | cons b rest =>
    rw [search_patriciaOf]
    cases found : latest (fun c => c.first = b) calls with
    | none =>
      cases found' : latest (fun c => c.key = b :: rest) calls with
      | none => rfl
      | some c =>
        obtain ⟨mem, keys⟩ := latest_spec found'
        have first : c.first = b := (cons.inj (of_decide_eq_true keys)).1
        exact absurd first (latest_none found mem)
    | some c =>
      obtain ⟨mem, firsts⟩ := latest_spec found
      obtain rfl : c.first = b := of_decide_eq_true firsts
      by_cases here : c.first :: rest = c.key
      · simp only [here, if_true, latest_first apart found]
      · cases found' : latest (fun d => d.key = c.first :: rest) calls with
        | none => simp only [if_neg here]
        | some d =>
          obtain ⟨mem', keys⟩ := latest_spec found'
          have keys : d.key = c.first :: rest := of_decide_eq_true keys
          have equal := apart d mem' c mem (cons.inj keys).1
          exact absurd (keys.symm.trans equal) here

theorem startsWith_agrees
    (start : GoString) : (patriciaOf calls).startsWith start = (trieOf calls).startsWith start := by
  cases start with
  | nil =>
    obtain ⟨children, root, _⟩ := patriciaOf_root calls
    simp [PatriciaTrie.startsWith, root, startsWithNode, Trie.startsWith, runesOf, runesLoop, descend]
  | cons b rest =>
    rw [Bool.eq_iff_iff, startsWith_trieOf calls (cons_ne_nil b rest), startsWith_patriciaOf]
    cases found : latest (fun c => c.first = b) calls with
    | none =>
      simp only [Bool.false_eq_true, false_iff]
      intro some_
      obtain ⟨c, mem, starts⟩ := some_
      exact latest_none found mem (cons_prefix_cons.mp starts).1.symm
    | some c =>
      obtain ⟨mem, firsts⟩ := latest_spec found
      simp only [List.isPrefixOf_iff_prefix]
      constructor
      · intro starts
        exact ⟨c, mem, starts⟩
      · intro some_
        obtain ⟨d, mem', starts⟩ := some_
        have first : b = d.first := (cons_prefix_cons.mp starts).1
        have same := apart d mem' c mem (first ▸ (of_decide_eq_true firsts).symm)
        exact same ▸ starts

end

/-- The two trees agree after a sequence of insertions exactly when no two different keys of it
    begin with the same byte. -/
theorem agree_iff (calls : List (Insertion V)) :
    Agree (patriciaOf calls) (trieOf calls) ↔ FirstsApart calls := by
  constructor
  · intro agree a memberA b memberB firsts
    -- the key that is not the last one with its first byte is lost
    have kept : ∀ c ∈ calls, ∀ d, latest (fun e => e.first = c.first) calls = some d →
        c.key = d.key := by
      intro c member d found
      by_contra lost
      obtain ⟨e, last⟩ := latest_isSome (p := fun e => e.key = c.key) member (by simp)
      have here := agree.1 c.key
      rw [search_trieOf, last, Insertion.key, search_patriciaOf, found] at here
      simp only [show ¬ c.first :: c.rest = d.key from lost, if_false, Prod.mk.injEq,
        Bool.false_eq_true, and_false] at here
    obtain ⟨d, found⟩ := latest_isSome (p := fun e => e.first = a.first) memberA (by simp)
    exact (kept a memberA d found).trans (kept b memberB d (firsts ▸ found)).symm
  · intro apart
    exact ⟨search_agrees apart, startsWith_agrees apart⟩

def romane : Insertion Nat := ⟨114, ascii "omane", some 1, by decide +kernel⟩

def romulus : Insertion Nat := ⟨114, ascii "omulus", some 2, by decide +kernel⟩

/-- After `romane` and `romulus` only the second is found in the compressed tree. -/
theorem agree_romulus :
    (patriciaOf [romane, romulus]).search (ascii "romane") = (none, false) ∧
      (trieOf [romane, romulus]).search (ascii "romane") = (some 1, true) ∧
      ¬ Agree (patriciaOf [romane, romulus]) (trieOf [romane, romulus]) := by
  have patricia : (patriciaOf [romane, romulus]).search (ascii "romane") = (none, false) := by
    decide +kernel
  have trie : (trieOf [romane, romulus]).search (ascii "romane") = (some 1, true) := by
    decide +kernel
  exact ⟨patricia, trie, fun agree => by
    have := agree.1 (ascii "romane")
    rw [patricia, trie] at this
    simp at this⟩

end Monitor.PrefixTree
