import Monitor.Storage.RedisStorage

/-! # Batches of values

`SetBatch` puts the prefix before every key. `GetBatch` leaves a key alone that starts
with the prefix already, so that such a key is looked up under the name of the key
without it. A key that is missing ends the whole read, since the pipeline reports the
error of the first command that failed.
-/

namespace Monitor.Storage

open GoText Json Redis List

namespace RedisStorage

variable {V : Type} {jsonMarshal : V → Except GoString GoString}

/-- The encoding of the value that the items have under a key. -/
def encoded (jsonMarshal : V → Except GoString GoString) (items : List (GoString × V))
    (key : GoString) : Option GoString :=
  (getKey key items).bind fun value => (jsonMarshal value).toOption

/-- The key that `GetBatch` finds the value of, when it was written under its own name. -/
def strip (keyPrefix key : GoString) : GoString :=
  if keyPrefix.isPrefixOf key then key.drop keyPrefix.length else key

theorem encodeItems_spec {items : List (GoString × V)} : ∀ {pairs : List (GoString × GoString)},
    encodeItems jsonMarshal items = .ok pairs →
      pairs.map (·.1) = items.map (·.1) ∧ ∀ key, getKey key pairs = encoded jsonMarshal items key := by
  induction items with
  | nil =>
    intro pairs done
    cases done
    exact ⟨rfl, fun _ => rfl⟩
  | cons item items ih =>
    intro pairs done
    obtain ⟨name, value⟩ := item
    simp only [encodeItems] at done
    cases marshalled : jsonMarshal value with
    | error err =>
      rw [marshalled] at done
      cases done
    | ok data =>
      rw [marshalled] at done
      cases rest : encodeItems jsonMarshal items with
      | error err =>
        rw [rest] at done
        cases done
      | ok later =>
        rw [rest] at done
        cases done
        obtain ⟨names, values⟩ := ih rest
        refine ⟨by simp only [map_cons, names], fun key => ?_⟩
        unfold encoded at values ⊢
        rw [getKey_cons, getKey_cons, values]
        split
        · rw [Option.bind_some, marshalled]
          rfl
        · rfl

theorem setBatch_client {keyPrefix : GoString} {items : List (GoString × V)}
    (distinct : (items.map (·.1)).Nodup) {s : RedisStorage}
    (written : (init keyPrefix).setBatch jsonMarshal items none = (s, none)) : s.keyPrefix = keyPrefix ∧
      ∀ key, s.client (keyPrefix ++ key) = (encoded jsonMarshal items key).map .string := by
  unfold setBatch at written
  cases done : encodeItems jsonMarshal items with
  | error err =>
    rw [done] at written
    cases written
  | ok pairs =>
    rw [done] at written
    obtain ⟨names, values⟩ := encodeItems_spec done
    have formatted : (pairs.map fun pair => Command.set ((init keyPrefix).formatKey pair.1) pair.2) =
        (pairs.map fun pair => (keyPrefix ++ pair.1, pair.2)).map fun pair => .set pair.1 pair.2 := by
      rw [map_map]
      rfl
    have apart : ((pairs.map fun pair => (keyPrefix ++ pair.1, pair.2)).map (·.1)).Nodup := by
      rw [map_map, show ((·.1) ∘ fun pair : GoString × GoString => (keyPrefix ++ pair.1, pair.2)) =
        (keyPrefix ++ ·) ∘ (·.1) from rfl, ← map_map, names]
      exact distinct.map fun _ _ => append_cancel_left
    simp only [formatted, pipeExec, exec_set apart, Prod.mk.injEq, and_true] at written
    subst written
    refine ⟨rfl, fun key => ?_⟩
    have found := getKey_map (f := (keyPrefix ++ ·)) (fun _ _ => append_cancel_left) id key pairs
    simp only [id, values] at found
    simp only [found, init]
    cases encoded jsonMarshal items key with
    | none | some data => rfl

theorem batchKey_eq (s : RedisStorage) (key : GoString) :
    s.batchKey key = s.keyPrefix ++ strip s.keyPrefix key := by
  unfold batchKey strip
  split
  · rename_i starts
    obtain ⟨rest, rfl⟩ := List.isPrefixOf_iff_prefix.mp starts
    rw [drop_left]
  · rfl

theorem execGet_found {db : Store} {name value : GoString → GoString} {keys : List GoString}
    (found : ∀ key ∈ keys, get db (name key) = .ok (value key)) :
    execGet db (keys.map name) = (keys.map fun key => .ok (value key), none) := by
  have replies : (keys.map name).map (get db) = keys.map fun key => .ok (value key) := by
    rw [map_map]
    exact map_congr_left found
  simp only [execGet, replies, Prod.mk.injEq, true_and, findSome?_eq_none_iff, mem_map]
  rintro reply ⟨key, _, rfl⟩
  rfl

theorem execGet_missing {db : Store} {keys : List GoString} {key : GoString} (mem : key ∈ keys)
    {err : GoString} (missing : get db key = .error err) : (execGet db keys).2 ≠ none := by
  intro none_
  have this := findSome?_eq_none_iff.mp none_ (get db key) (mem_map.mpr ⟨key, mem, rfl⟩)
  rw [missing] at this
  cases this

theorem batchLoop_found (value : GoString → GoString) (keys : List GoString) :
    ∀ result : List (GoString × GoString), ∃ all,
      batchLoop (keys.zip (keys.map fun key => .ok (value key))) result = .ok all ∧
        ∀ key, getKey key all = if key ∈ keys then some (value key) else getKey key result := by
  induction keys with
  | nil =>
    intro result
    exact ⟨result, rfl, fun key => by simp⟩
  | cons first keys ih =>
    intro result
    obtain ⟨all, loop, entries⟩ := ih (setKey first (value first) result)
    refine ⟨all, loop, fun key => ?_⟩
    rw [entries, getKey_setKey]
    by_cases later : key ∈ keys
    · simp only [mem_cons, later, or_true, if_true]
    · by_cases same : first = key
      · simp [same, later]
      · simp [same, later, Ne.symm same]

/-- The read of a batch: it fails on a key that is not found, and else gives each requested key the
    value of its stripped name. -/
theorem getBatch_cases {s : RedisStorage} {content : GoString → Option GoString}
    (holds : ∀ key, s.client (s.keyPrefix ++ key) = (content key).map .string) (keys : List GoString) :
    (∃ key ∈ keys, content (strip s.keyPrefix key) = none ∧ ∃ err, s.getBatch keys none = .error err) ∨
      ((∀ key ∈ keys, content (strip s.keyPrefix key) ≠ none) ∧
        ∃ result, s.getBatch keys none = .ok result ∧ ∀ key, getKey key result =
          if key ∈ keys then content (strip s.keyPrefix key) else none) := by
  have read (key : GoString) : get s.client (s.batchKey key) =
      (content (strip s.keyPrefix key)).elim (.error redisNil) .ok := by
    unfold Redis.get
    rw [batchKey_eq, holds]
    cases content (strip s.keyPrefix key) with
    | none | some value => rfl
  by_cases found : ∀ key ∈ keys, content (strip s.keyPrefix key) ≠ none
  · refine .inr ⟨found, ?_⟩
    let value (key : GoString) : GoString := (content (strip s.keyPrefix key)).getD []
    have replies : execGet s.client (keys.map s.batchKey) =
        (keys.map fun key => .ok (value key), none) := by
      refine execGet_found fun key mem => ?_
      obtain ⟨data, some_⟩ := Option.ne_none_iff_exists'.mp (found key mem)
      simp only [read, value, some_, Option.getD_some, Option.elim_some]
    obtain ⟨all, loop, entries⟩ := batchLoop_found value keys []
    refine ⟨all, ?_, fun key => ?_⟩
    · simp only [getBatch, replies, loop]
    · rw [entries]
      split
      · rename_i mem
        obtain ⟨data, some_⟩ := Option.ne_none_iff_exists'.mp (found key mem)
        simp only [value, some_, Option.getD_some]
      · rfl
  · push Not at found
    obtain ⟨key, mem, none_⟩ := found
    refine .inl ⟨key, mem, none_, ?_⟩
    have missing : get s.client (s.batchKey key) = .error redisNil := by
      rw [read, none_, Option.elim_none]
    have failed := execGet_missing (mem_map.mpr ⟨key, mem, rfl⟩) missing
    unfold getBatch
    cases done : execGet s.client (keys.map s.batchKey) with
    | mk cmds err =>
      rw [done] at failed
      cases err with
      | none => exact absurd rfl failed
      | some err => exact ⟨err, rfl⟩

/-- A batch that was written to an empty server is read back exactly when every requested key was
    written, and one that starts with the prefix was also written without it, with the same
    encoding. -/
theorem getBatch_setBatch_iff (keyPrefix : GoString) {items : List (GoString × V)}
    (distinct : (items.map (·.1)).Nodup) {s : RedisStorage}
    (written : (init keyPrefix).setBatch jsonMarshal items none = (s, none))
    (keys : List GoString) :
    (∃ result, s.getBatch keys none = .ok result ∧ ∀ key, getKey key result =
        if key ∈ keys then encoded jsonMarshal items key else none) ↔
      ∀ key ∈ keys, encoded jsonMarshal items key ≠ none ∧
        (keyPrefix <+: key → encoded jsonMarshal items (key.drop keyPrefix.length) =
          encoded jsonMarshal items key) := by
  obtain ⟨same, holds⟩ := setBatch_client distinct written
  subst same
  -- both conditions say what the key is looked up as
  have stripped (key : GoString) : (s.keyPrefix <+: key →
      encoded jsonMarshal items (key.drop s.keyPrefix.length) = encoded jsonMarshal items key) ↔
      encoded jsonMarshal items (strip s.keyPrefix key) = encoded jsonMarshal items key := by
    unfold strip
    split
    · rename_i starts
      exact ⟨fun agree => agree (List.isPrefixOf_iff_prefix.mp starts), fun agree _ => agree⟩
    · rename_i starts
      exact iff_of_true (fun yes => absurd (List.isPrefixOf_iff_prefix.mpr yes) starts) rfl
  simp only [stripped]
  rcases getBatch_cases holds keys with ⟨key, member, none_, err, failed⟩ | ⟨found, result, done, entries⟩
  · refine iff_of_false ?_ fun agree => ?_
    · rintro ⟨result, done, _⟩
      rw [failed] at done
      cases done
    · obtain ⟨some_, agree⟩ := agree key member
      exact some_ (agree.symm.trans none_)
  · constructor
    · rintro ⟨result', done', entries'⟩ key member
      cases done.symm.trans done'
      have value := (entries key).symm.trans (entries' key)
      rw [if_pos member, if_pos member] at value
      exact ⟨value ▸ found key member, value⟩
    · intro agree
      refine ⟨result, done, fun key => ?_⟩
      rw [entries]
      split
      · rename_i member
        exact (agree key member).2
      · rfl

/-- The encoding of a string without anything to escape. -/
def quote (text : GoString) : Except GoString GoString := .ok (34 :: text ++ [34])

def twoItems : List (GoString × GoString) :=
  [(ascii "a", ascii "x"), (ascii "p:a", ascii "y")]

theorem getBatch_setBatch_iff_plain :
    ∃ s, (init (ascii "p:")).setBatch quote twoItems none = (s, none) ∧
      ∃ result, s.getBatch [ascii "a"] none = .ok result ∧ ∀ key, getKey key result =
        if key ∈ [ascii "a"] then encoded quote twoItems key else none :=
  ⟨_, rfl, (getBatch_setBatch_iff (ascii "p:") (by decide) rfl [ascii "a"]).mpr (by decide)⟩

/-- A key that was not written fails the read of one that was, and a key that starts with the
    prefix gets the value of another one. -/
theorem getBatch_misreads :
    ∃ s, (init (ascii "p:")).setBatch quote twoItems none = (s, none) ∧
      encoded quote twoItems (ascii "a") = some (34 :: ascii "x" ++ [34]) ∧
      s.getBatch [ascii "a", ascii "b"] none = .error redisNil ∧
      encoded quote twoItems (ascii "p:a") = some (34 :: ascii "y" ++ [34]) ∧
      s.getBatch [ascii "p:a"] none = .ok [(ascii "p:a", 34 :: ascii "x" ++ [34])] :=
  ⟨_, rfl, rfl, rfl, rfl, rfl⟩

end RedisStorage

end Monitor.Storage
