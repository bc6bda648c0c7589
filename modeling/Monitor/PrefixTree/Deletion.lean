import Monitor.PrefixTree.Agreement

/-! # Deleting from the prefix tree

`Delete` takes every byte of its key for a rune, so beyond ASCII it looks for another key,
the one whose characters are these bytes. What it returns is the pruning signal of the root:
whether the trie is empty now. Hence it does what it should only when there is nothing to
delete under either name, or when the key is ASCII and the only one (`deletesExactly_iff`).
-/

namespace Monitor.PrefixTree

open GoText Utf8 List UInt8

variable {V : Type}

theorem deleteRunes_present {key : List Nat} {node : TrieNode V}
    (dropped : (deleteRunes key node).2 = true) : valueAt key node ≠ none := by
  induction key generalizing node with
  | nil =>
    obtain ⟨children, isEnd, value⟩ := node
    cases isEnd with
    | false => cases dropped
    | true => exact Option.some_ne_none value
  | cons c key ih =>
    obtain ⟨children, isEnd, value⟩ := node
    rw [deleteRunes] at dropped
    rw [valueAt_cons]
    cases found : GoMap.get c children with
    | none =>
      rw [found] at dropped
      cases dropped
    | some child =>
      simp only [found] at dropped
      split at dropped
      · rename_i drop
        exact ih drop
      · cases dropped

theorem Tidy.dropped_iff {node : TrieNode V} (tidy : Tidy node) (key : List Nat) :
    (PrefixTree.deleteRunes key node).2 = true ↔
      valueAt key node ≠ none ∧ ∀ path, path ≠ key → valueAt path node = none := by
  constructor
  · intro dropped
    refine ⟨deleteRunes_present dropped, fun path other => ?_⟩
    have empty := deleteRunes_dropped dropped path
    rwa [valueAt_deleteRunes, if_neg other] at empty
  · rintro ⟨present, only⟩
    obtain ⟨v, holds⟩ := Option.ne_none_iff_exists'.mp present
    by_contra kept
    -- A node that stays leads to a stored key, but nothing is left.
    obtain ⟨path, v', left⟩ := (tidy.deleteRunes key).2 ⟨key, v, holds⟩ (Bool.eq_false_iff.mpr kept)
    rw [valueAt_deleteRunes] at left
    split at left
    · cases left
    · rename_i other
      rw [only path other] at left
      cases left

theorem scalar_byte (k : GoString) : ∀ r ∈ k.map toNat, Scalar r := by
  intro r mem
  obtain ⟨b, _, rfl⟩ := mem_map.mp mem
  have := b.toNat_lt
  exact .inl (by omega)

/-- The key whose characters are the bytes of `k`. -/
def misread (k : GoString) : ValidString := ⟨encode (k.map UInt8.toNat), _, scalar_byte k, rfl⟩

theorem runesOf_misread (k : GoString) : runesOf (misread k) = k.map toNat :=
  runesOf_encode (scalar_byte k)

variable {k : ValidString}

theorem runesOf_inj {k' : ValidString} (same : runesOf k = runesOf k') : k = k' := by
  obtain ⟨_, ks, scalars, rfl⟩ := k
  obtain ⟨_, ks', scalars', rfl⟩ := k'
  rw [runesOf_encode scalars, runesOf_encode scalars'] at same
  subst same
  rfl

theorem misread_ascii (small : ∀ b ∈ k.1, b < 0x80) : misread k = k := by
  apply runesOf_inj
  rw [runesOf_misread, runesOf_ascii small]

theorem length_encode_bytes (k : GoString) : k.length ≤ (encode (k.map toNat)).length ∧
    ((encode (k.map toNat)).length = k.length → ∀ b ∈ k, b < 0x80) := by
  induction k with
  | nil => exact ⟨Nat.le_refl 0, fun _ _ mem => by cases mem⟩
  | cons b k ih =>
    obtain ⟨longer, same⟩ := ih
    rw [map_cons, encode_cons, length_append, length_cons]
    by_cases small : b < 0x80
    · rw [encodeRune_ascii small, length_singleton]
      refine ⟨by omega, fun equal => ?_⟩
      exact forall_mem_cons.mpr ⟨small, same (by omega)⟩
    · have scalar : Scalar b.toNat := scalar_byte [b] _ (mem_singleton.mpr rfl)
      have large : 0x80 ≤ b.toNat := Nat.le_of_not_lt small
      have two := (encodeRune_sequence scalar large).two_le_length
      exact ⟨by omega, fun equal => by omega⟩

theorem ascii_of_misread (same : misread k = k) : ∀ b ∈ k.1, b < 0x80 :=
  (length_encode_bytes k.1).2 (congrArg (fun k : ValidString => k.1.length) same)

/-- The trie that `Insert` calls with valid keys build. -/
def built (inserts : List (ValidString × Option V)) : Trie V :=
  inserts.foldl (fun t i => t.insert i.1 i.2) Trie.newTrie

section

variable (inserts : List (ValidString × Option V))

theorem built_concat (i : ValidString × Option V) :
    built (inserts ++ [i]) = (built inserts).insert i.1 i.2 := by
  rw [built, foldl_append]
  rfl

theorem tidy_built : Tidy (built inserts).root := by
  induction inserts using List.reverseRecOn with
  | nil => exact tidy_newNode
  | append_singleton inserts i ih =>
    rw [built_concat]
    exact ih.insertRunes i.2 _

theorem valueAt_built (path : List Nat) :
    valueAt path (built inserts).root ≠ none ↔ ∃ i ∈ inserts, runesOf i.1 = path := by
  induction inserts using List.reverseRecOn with
  | nil => simp [built, Trie.newTrie, valueAt_newNode]
  | append_singleton inserts i ih =>
    simp only [built_concat, Trie.insert, valueAt_insertRunes, mem_append, mem_singleton]
    by_cases same : path = runesOf i.1
    · rw [if_pos same]
      exact iff_of_true (Option.some_ne_none _) ⟨i, .inr rfl, same.symm⟩
    · rw [if_neg same, ih]
      constructor
      · rintro ⟨j, mem, runes⟩
        exact ⟨j, .inl mem, runes⟩
      · rintro ⟨j, mem | rfl, runes⟩
        · exact ⟨j, mem, runes⟩
        · exact absurd runes.symm same

theorem present_iff (k : ValidString) :
    valueAt (runesOf k) (built inserts).root ≠ none ↔ ∃ i ∈ inserts, i.1 = k := by
  rw [valueAt_built]
  constructor
  · rintro ⟨i, mem, same⟩
    exact ⟨i, mem, runesOf_inj same⟩
  · rintro ⟨i, mem, rfl⟩
    exact ⟨i, mem, rfl⟩

end

theorem tidy_delete {t : Trie V} (tidy : Tidy t.root) (k : GoString) : Tidy (t.delete k).1.root :=
  (tidy.deleteRunes _).1

theorem valueAt_delete (t : Trie V) (k : GoString) (path : List Nat) :
    valueAt path (t.delete k).1.root =
      if path = k.map toNat then none else valueAt path t.root :=
  valueAt_deleteRunes _ path t.root

theorem Tidy.search_flag {t : Trie V} (tidy : Tidy t.root) (key : GoString) :
    (t.search key).2 = true ↔ valueAt (runesOf key) t.root ≠ none := by
  rw [tidy.search]
  cases valueAt (runesOf key) t.root with
  | none => exact iff_of_false Bool.false_ne_true fun some_ => some_ rfl
  | some value => exact iff_of_true rfl (Option.some_ne_none value)

/-- `Delete` reports whether the key was inserted, and removes it and nothing else. -/
structure DeletesExactly (inserts : List (ValidString × Option V)) (k : ValidString) : Prop where
  reports : ((built inserts).delete k).2 = true ↔ ∃ i ∈ inserts, i.1 = k
  gone : (((built inserts).delete k).1.search k).2 = false
  others : ∀ key, key ≠ k.1 → ((built inserts).delete k).1.search key = (built inserts).search key

section Deleting

variable {inserts : List (ValidString × Option V)} {k : ValidString}

theorem deletesExactly_of_absent (absent : ¬ ∃ i ∈ inserts, i.1 = k)
    (absent' : ¬ ∃ i ∈ inserts, i.1 = misread k) : DeletesExactly inserts k := by
  have tidy := tidy_built inserts
  have nothing : valueAt (k.1.map toNat) (built inserts).root = none := by
    rw [← present_iff, runesOf_misread] at absent'
    exact not_not.mp absent'
  have same (path : List Nat) : valueAt path ((built inserts).delete k).1.root =
      valueAt path (built inserts).root := by
    rw [valueAt_delete]
    split
    · rename_i here
      rw [here, nothing]
    · rfl
  refine ⟨iff_of_false (fun dropped => deleteRunes_present dropped nothing) absent, ?_, ?_⟩
  · rw [Bool.eq_false_iff, Ne, (tidy_delete tidy k).search_flag, same, present_iff]
    exact absent
  · intro key _
    rw [(tidy_delete tidy k).search, tidy.search, same]

theorem deletesExactly_of_only (small : ∀ b ∈ k.1, b < 0x80) (some_ : inserts ≠ [])
    (only : ∀ i ∈ inserts, i.1 = k) : DeletesExactly inserts k := by
  have tidy := tidy_built inserts
  have runes := runesOf_ascii small
  obtain ⟨i, mem⟩ := exists_mem_of_ne_nil inserts some_
  have there : ∃ i ∈ inserts, i.1 = k := ⟨i, mem, only i mem⟩
  have alone : ∀ path, path ≠ k.1.map toNat → valueAt path (built inserts).root = none := by
    intro path other
    by_contra present
    obtain ⟨j, listed, same⟩ := (valueAt_built inserts path).mp present
    rw [only j listed, runes] at same
    exact other same.symm
  refine ⟨iff_of_true ((tidy.dropped_iff _).mpr ⟨?_, alone⟩) there, ?_, ?_⟩
  · rw [← runes]
    exact (present_iff inserts k).mpr there
  · rw [Bool.eq_false_iff, Ne, (tidy_delete tidy k).search_flag, valueAt_delete, if_pos runes]
    exact fun some_ => some_ rfl
  · intro key other
    rw [(tidy_delete tidy k).search, tidy.search, valueAt_delete,
      if_neg fun same => other ((runesOf_eq_ascii_iff small key).mp same)]

theorem DeletesExactly.absent (exact_ : DeletesExactly inserts k) (wide : misread k ≠ k) :
    (¬ ∃ i ∈ inserts, i.1 = k) ∧ ¬ ∃ i ∈ inserts, i.1 = misread k := by
  have tidy := tidy_built inserts
  have apart : runesOf k ≠ k.1.map toNat := by
    intro same
    exact wide (runesOf_inj ((runesOf_misread k).trans same.symm))
  constructor
  · intro there
    have kept := exact_.gone
    rw [Bool.eq_false_iff, Ne, (tidy_delete tidy k).search_flag, valueAt_delete, if_neg apart,
      present_iff] at kept
    exact kept there
  · intro there
    have kept := exact_.others (misread k) fun same => wide (Subtype.ext same)
    have found := (tidy.search_flag (misread k)).mpr ((present_iff inserts _).mpr there)
    rw [← kept, (tidy_delete tidy k).search_flag, valueAt_delete, if_pos (runesOf_misread k)] at found
    exact found rfl

theorem DeletesExactly.only (exact_ : DeletesExactly inserts k) (small : ∀ b ∈ k.1, b < 0x80)
    (there : ∃ i ∈ inserts, i.1 = k) : ∀ i ∈ inserts, i.1 = k := by
  intro i mem
  obtain ⟨_, alone⟩ := ((tidy_built inserts).dropped_iff _).mp (exact_.reports.mpr there)
  by_contra other
  have present := (present_iff inserts i.1).mpr ⟨i, mem, rfl⟩
  refine present (alone _ fun same => other (Subtype.ext ?_))
  exact (runesOf_eq_ascii_iff small i.1).mp same

end Deleting

/-- `Delete` does what it should exactly when neither the key nor the one it is read as was
    inserted, or when the key is ASCII and the only one that was. -/
theorem deletesExactly_iff (inserts : List (ValidString × Option V)) (k : ValidString) :
    DeletesExactly inserts k ↔
      ((∀ i ∈ inserts, i.1 ≠ k) ∧ ∀ i ∈ inserts, i.1 ≠ misread k) ∨
      ((∀ b ∈ k.1, b < 0x80) ∧ inserts ≠ [] ∧ ∀ i ∈ inserts, i.1 = k) := by
  constructor
  · intro exact_
    by_cases small : ∀ b ∈ k.1, b < 0x80
    · by_cases there : ∃ i ∈ inserts, i.1 = k
      · refine .inr ⟨small, ?_, exact_.only small there⟩
        obtain ⟨i, member, _⟩ := there
        exact ne_nil_of_mem member
      · rw [misread_ascii small]
        exact .inl ⟨fun i member same => there ⟨i, member, same⟩, fun i member same => there ⟨i, member, same⟩⟩
    · obtain ⟨absent, absent'⟩ := exact_.absent fun same => small (ascii_of_misread same)
      exact .inl ⟨fun i member same => absent ⟨i, member, same⟩,
        fun i member same => absent' ⟨i, member, same⟩⟩
  · rintro (⟨absent, absent'⟩ | ⟨small, some_, only⟩)
    · exact deletesExactly_of_absent (fun ⟨i, member, same⟩ => absent i member same)
        fun ⟨i, member, same⟩ => absent' i member same
    · exact deletesExactly_of_only small some_ only

section Wrong

/-- The letter `é`, in UTF-8. -/
private def eAcute : ValidString := ⟨[0xC3, 0xA9], [0xE9], by decide +kernel, by decide +kernel⟩

/-- A key beside another one is removed and reported as absent; a key beyond ASCII is reported as
    absent and stays; and deleting it removes the key whose characters are its bytes. -/
theorem delete_wrong :
    (((built [(letterA, some 1), (lettersAB, some 2)]).delete lettersAB).2 = false ∧
      ((built [(letterA, some 1), (lettersAB, some 2)]).search lettersAB) = (some 2, true) ∧
      ¬ DeletesExactly [(letterA, some 1), (lettersAB, some 2)] lettersAB) ∧
    (((built [(eAcute, some 1)]).delete eAcute).2 = false ∧
      ((built [(eAcute, some 1)]).delete eAcute).1.search eAcute = (some 1, true) ∧
      ¬ DeletesExactly [(eAcute, some 1)] eAcute) ∧
    ((built [(misread eAcute, some 1)]).search (misread eAcute) = (some 1, true) ∧
      ((built [(misread eAcute, some 1)]).delete eAcute).1.search (misread eAcute) = (none, false) ∧
      ¬ DeletesExactly [(misread eAcute, some 1)] eAcute) := by
  have removed : ((built [(letterA, some 1), (lettersAB, some 2)]).delete lettersAB).2 = false := by
    decide +kernel
  have stays : ((built [(eAcute, some 1)]).delete eAcute).1.search eAcute = (some 1, true) := by
    decide +kernel
  have before : (built [(misread eAcute, some 1)]).search (misread eAcute) = (some 1, true) := by
    decide +kernel
  have after : ((built [(misread eAcute, some 1)]).delete eAcute).1.search (misread eAcute) =
      (none, false) := by
    decide +kernel
  refine ⟨⟨removed, by decide +kernel, fun exact_ => ?_⟩, ⟨by decide +kernel, stays, fun exact_ => ?_⟩,
    before, after, fun exact_ => ?_⟩
  · have reported := exact_.reports.mpr ⟨(lettersAB, some 2), by simp, rfl⟩
    cases reported
  · have gone := exact_.gone
    cases gone
  · have kept := exact_.others (misread eAcute) (by decide +kernel)
    rw [before, after] at kept
    cases kept

end Wrong

end Monitor.PrefixTree
