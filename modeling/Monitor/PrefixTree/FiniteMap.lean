import Monitor.Lib.FiniteMap
import Monitor.PrefixTree.Trie

/-! # The prefix tree is a finite map

What a trie holds at a path changes with an insertion or a deletion as a map does, and
no deletion leaves a branch without a stored key behind. With the paths of valid
strings this gives the methods of the trie (`refines`).
-/

namespace Monitor.PrefixTree

open GoText Utf8 FiniteMap List Function Option GoMap UInt8

variable {V : Type}

section Values

def TrieNode.stored : TrieNode V → Option (Option V)
  | .mk _ isEnd value => if isEnd then some value else none

def valueAt (path : List Nat) (node : TrieNode V) : Option (Option V) :=
  (descend path node).bind TrieNode.stored

theorem valueAt_cons (ch : Nat) (path : List Nat) (children : List (Nat × TrieNode V)) (isEnd : Bool)
    (value : Option V) : valueAt (ch :: path) (.mk children isEnd value) =
      (get ch children).bind (valueAt path) := by
  rw [valueAt, descend]
  cases get ch children <;> rfl

theorem valueAt_newNode (path : List Nat) : valueAt path (newNode : TrieNode V) = none := by
  cases path <;> rfl

theorem valueAt_insertRunes (v : Option V) (key path : List Nat) (node : TrieNode V) :
    valueAt path (insertRunes v key node) = if path = key then some v else valueAt path node := by
  induction key generalizing path node with
  | nil =>
    obtain ⟨children, isEnd, value⟩ := node
    cases path with
    | nil => rfl
    | cons ch path => simp [insertRunes, valueAt_cons]
  | cons c key ih =>
    obtain ⟨children, isEnd, value⟩ := node
    cases path with
    | nil => rfl
    | cons ch path =>
      rw [insertRunes, valueAt_cons, valueAt_cons, get_set]
      by_cases same : c = ch
      · subst same
        rw [if_pos rfl, bind_some, ih]
        cases get c children with
        | none => simp [valueAt_newNode]
        | some child => simp
      · simp [same, Ne.symm same]

theorem deleteRunes_dropped {key : List Nat} {node : TrieNode V}
    (dropped : (deleteRunes key node).2 = true) (path : List Nat) :
    valueAt path (deleteRunes key node).1 = none := by
  have empty (value : Option V) : valueAt path (.mk [] false value) = none := by
    cases path <;> rfl
  obtain ⟨children, isEnd, value⟩ := node
  cases key with
  | nil =>
    rw [deleteRunes] at dropped ⊢
    split at dropped
    · cases dropped
    · rename_i here
      rw [if_neg here, length_eq_zero_iff.mp (of_decide_eq_true dropped)]
      exact empty none
  | cons c key =>
    rw [deleteRunes] at dropped ⊢
    cases found : get c children with
    | none =>
      rw [found] at dropped
      cases dropped
    | some child =>
      simp only [found] at dropped ⊢
      split at dropped
      · rename_i drop
        rw [Bool.and_eq_true, Bool.not_eq_true', decide_eq_true_iff] at dropped
        rw [if_pos drop, length_eq_zero_iff.mp dropped.2, dropped.1]
        exact empty value
      · cases dropped

theorem valueAt_deleteRunes (key path : List Nat) (node : TrieNode V) :
    valueAt path (deleteRunes key node).1 = if path = key then none else valueAt path node := by
  induction key generalizing path node with
  | nil =>
    obtain ⟨children, isEnd, value⟩ := node
    cases isEnd with
    | false =>
      cases path with
      | nil => rfl
      | cons ch path => rfl
    | true =>
      cases path with
      | nil => rfl
      | cons ch path => rfl
  | cons c key ih =>
    obtain ⟨children, isEnd, value⟩ := node
    rw [deleteRunes]
    cases found : get c children with
    | none =>
      simp only
      split
      · rename_i same
        rw [same, valueAt_cons, found]
        rfl
      · rfl
    | some child =>
      simp only
      cases path with
      | nil => split <;> rfl
      | cons ch path =>
        by_cases same : c = ch
        · subst same
          have below := ih path child
          rw [valueAt_cons, found, bind_some]
          split
          · rename_i drop
            rw [deleteRunes_dropped drop] at below
            rw [valueAt_cons, get_erase, if_pos rfl, bind_none]
            simpa only [List.cons.injEq, true_and] using below
          · rw [valueAt_cons, get_set, if_pos rfl, bind_some]
            simpa only [List.cons.injEq, true_and] using below
        · split
          · simp [valueAt_cons, get_erase, same, Ne.symm same]
          · simp [valueAt_cons, get_set, same, Ne.symm same]

end Values

variable {child : TrieNode V}

section Branches

def Alive (node : TrieNode V) : Prop := ∃ path v, valueAt path node = some v

/-- Every node below leads to a stored key, and a node that ends no key has no value. -/
inductive Tidy : TrieNode V → Prop where
  | mk {children : List (Nat × TrieNode V)} {isEnd : Bool} {value : Option V} :
      (∀ ch child, GoMap.get ch children = some child → Tidy child) →
      (∀ ch child, GoMap.get ch children = some child → Alive child) →
      (isEnd = false → value = none) → Tidy (.mk children isEnd value)

theorem tidy_newNode : Tidy (newNode : TrieNode V) :=
  .mk (by rintro ch child ⟨⟩) (by rintro ch child ⟨⟩) fun _ => rfl

variable {children : List (Nat × TrieNode V)}

theorem alive_below {ch : Nat}
    (found : get ch children = some child) (alive : Alive child) (isEnd : Bool)
    (value : Option V) : Alive (.mk children isEnd value) := by
  obtain ⟨path, v, holds⟩ := alive
  refine ⟨ch :: path, v, ?_⟩
  rw [valueAt_cons, found, bind_some, holds]

variable {isEnd : Bool} {value : Option V}

theorem Tidy.alive
    (tidy : Tidy (.mk children isEnd value)) (useful : isEnd = true ∨ children ≠ []) :
    Alive (.mk children isEnd value) := by
  rcases useful with rfl | some_
  · exact ⟨[], value, rfl⟩
  · obtain ⟨⟨ch, child⟩, rest, rfl⟩ := exists_cons_of_ne_nil some_
    have found : get ch ((ch, child) :: rest) = some child := by
      rw [get_cons, if_pos rfl]
    cases tidy with
    | mk below alives blank => exact alive_below found (alives ch child found) isEnd value

theorem Tidy.set
    (tidy : Tidy (.mk children isEnd value)) (ch : Nat)
    (below : Tidy child) (alive : Alive child) : Tidy (.mk (set ch child children) isEnd value) := by
  cases tidy with
  | mk olds alives blank =>
    refine .mk (fun c other found => ?_) (fun c other found => ?_) blank
    all_goals
      rw [get_set] at found
      split at found
    · cases found
      exact below
    · exact olds c other found
    · cases found
      exact alive
    · exact alives c other found

theorem Tidy.erase
    (tidy : Tidy (.mk children isEnd value)) (ch : Nat) :
    Tidy (.mk (erase ch children) isEnd value) := by
  cases tidy with
  | mk olds alives blank =>
    refine .mk (fun c other found => ?_) (fun c other found => ?_) blank
    all_goals
      rw [get_erase] at found
      split at found
    · cases found
    · exact olds c other found
    · cases found
    · exact alives c other found

theorem alive_insertRunes (v : Option V) (key : List Nat) (node : TrieNode V) :
    Alive (insertRunes v key node) :=
  ⟨key, v, by rw [valueAt_insertRunes, if_pos rfl]⟩

theorem Tidy.insertRunes {node : TrieNode V} (tidy : Tidy node) (v : Option V)
    (key : List Nat) : Tidy (insertRunes v key node) := by
  induction key generalizing node with
  | nil =>
    cases tidy with
    | mk olds alives blank => exact .mk olds alives nofun
  | cons c key ih =>
    have whole := tidy
    cases tidy with
    | @mk children isEnd value olds alives blank =>
      refine whole.set c (ih ?_) (alive_insertRunes v key _)
      cases found : get c children with
      | none => exact tidy_newNode
      | some child => exact olds c child found

theorem Tidy.deleteRunes {node : TrieNode V} (tidy : Tidy node) (key : List Nat) :
    Tidy (deleteRunes key node).1 ∧
      (Alive node → (deleteRunes key node).2 = false → Alive (deleteRunes key node).1) := by
  induction key generalizing node with
  | nil =>
    have whole := tidy
    cases tidy with
    | @mk children isEnd value olds alives blank =>
      have cleared : Tidy (.mk children false (none : Option V)) :=
        .mk olds alives fun _ => rfl
      cases isEnd with
      | false => exact ⟨whole, fun alive _ => alive⟩
      | true =>
        refine ⟨cleared, fun _ kept => cleared.alive (.inr ?_)⟩
        rintro rfl
        cases kept
  | cons c key ih =>
    have whole := tidy
    cases tidy with
    | @mk children isEnd value olds alives blank =>
      rw [PrefixTree.deleteRunes]
      cases found : get c children with
      | none => exact ⟨whole, fun alive _ => alive⟩
      | some child =>
        obtain ⟨below, kept⟩ := ih (olds c child found)
        simp only
        split
        · refine ⟨whole.erase c, fun _ stays => (whole.erase c).alive ?_⟩
          by_contra useless
          obtain ⟨notEnd, none_⟩ := not_or.mp useless
          simp [notEnd, not_not.mp none_] at stays
        · rename_i stays
          have alive := kept (alives c child found) (Bool.eq_false_iff.mpr stays)
          have there : GoMap.get c
              (GoMap.set c (PrefixTree.deleteRunes key child).1 children) =
                some (PrefixTree.deleteRunes key child).1 := by
            rw [get_set, if_pos rfl]
          exact ⟨whole.set c below alive, fun _ _ => alive_below there alive isEnd value⟩

end Branches

section Collecting

theorem TrieNode.byChildren {P : TrieNode V → Prop} (step : ∀ children isEnd value,
      (∀ ch child, GoMap.get ch children = some child → P child) → P (.mk children isEnd value))
    (node : TrieNode V) : P node := by
  cases node with
  | mk children isEnd value =>
    refine step children isEnd value fun ch child found => ?_
    have smaller := sizeOf_lt_of_mem (mem_of_get found)
    have pair := Prod.mk.sizeOf_spec ch child
    exact TrieNode.byChildren step child
termination_by sizeOf node
decreasing_by
  simp only [TrieNode.mk.sizeOf_spec]
  omega

/-- All paths with a value consist of scalar values. -/
def ScalarPaths (values : List Nat → Option (Option V)) : Prop :=
  ∀ rs v, values rs = some v → ∀ r ∈ rs, Scalar r

/-- The words with a value, below a path, are added to a result, and nothing else changes. -/
structure Collects (path : GoString) (values : List Nat → Option (Option V))
    (result result' : Words V) : Prop where
  added : ∀ rs v, values rs = some v → result' (path ++ encode rs) = some v
  kept : ∀ k, (∀ rs v, values rs = some v → k ≠ path ++ encode rs) → result' k = result k

theorem foldl_collects {path : GoString} {values : List Nat → Option (Option V)}
    (scalar : ScalarPaths values) {turn : Words V → Nat → Words V}
    (each : ∀ result ch, Collects path (fun rs => if rs.head? = some ch then values rs else none)
      result (turn result ch)) (chs : List Nat) (result : Words V) :
    Collects path (fun rs => if ∃ ch ∈ chs, rs.head? = some ch then values rs else none)
      result (chs.foldl turn result) := by
  induction chs generalizing result with
  | nil => exact ⟨by simp, by simp⟩
  | cons ch chs ih =>
    have first := each result ch
    have later := ih (turn result ch)
    refine ⟨fun rs v found => ?_, fun k other => ?_⟩
    · obtain ⟨begins, value⟩ := ite_none_right_eq_some.mp found
      by_cases again : ∃ ch ∈ chs, rs.head? = some ch
      · exact later.added rs v (by rw [if_pos again, value])
      · have here : rs.head? = some ch := by
          obtain ⟨c, mem, head⟩ := begins
          rcases mem_cons.mp mem with rfl | listed
          · exact head
          · exact absurd ⟨c, listed, head⟩ again
        -- The later turns do not write this word: an equal word would have an equal path.
        have untouched := later.kept (path ++ encode rs) fun rs' v' found' same => by
          obtain ⟨begins', value'⟩ := ite_none_right_eq_some.mp found'
          obtain rfl := encode_injective (scalar rs v value) (scalar rs' v' value')
            (append_cancel_left same)
          exact again begins'
        rw [foldl_cons, untouched]
        exact first.added rs v (by rw [if_pos here, value])
    · rw [foldl_cons, later.kept k, first.kept k]
      · intro rs v found
        obtain ⟨begins, value⟩ := ite_none_right_eq_some.mp found
        exact other rs v (by rw [if_pos ⟨ch, mem_cons_self, begins⟩, value])
      · intro rs v found
        obtain ⟨⟨c, mem, head⟩, value⟩ := ite_none_right_eq_some.mp found
        exact other rs v (by rw [if_pos ⟨c, mem_cons_of_mem ch mem, head⟩, value])

theorem collectChild_eq (order : Order) (path : GoString) (ch : Nat)
    (children : List (Nat × TrieNode V)) (result : Words V) :
    collectChild order path ch children result =
      match get ch children with
      | none => result
      | some child => collectWords order (path ++ stringOfRune ch) child result := by
  induction children with
  | nil => rfl
  | cons e children ih =>
    obtain ⟨c, child⟩ := e
    rw [collectChild, get_cons, ih]
    by_cases same : c = ch
    · simp only [if_pos same]
    · simp only [if_neg same]

section Turns

variable {children : List (Nat × TrieNode V)} {isEnd : Bool} {value : Option V} {path : GoString}
  {ch : Nat} {result result' : Words V}

theorem collects_nothing (missing : get ch children = none) (result : Words V) :
    Collects path (fun rs => if rs.head? = some ch then valueAt rs (.mk children isEnd value) else none)
      result result := by
  refine ⟨fun rs v found => ?_, fun _ _ => rfl⟩
  obtain ⟨head, holds⟩ := ite_none_right_eq_some.mp found
  obtain ⟨rs', rfl⟩ := head?_eq_some_iff.mp head
  rw [valueAt_cons, missing] at holds
  cases holds

theorem Collects.above (scalar : ScalarPaths (valueAt · (.mk children isEnd value)))
    (at_ : get ch children = some child) (words : ScalarPaths (valueAt · child) →
      Collects (path ++ stringOfRune ch) (valueAt · child) result result') :
    Collects path (fun rs => if rs.head? = some ch then valueAt rs (.mk children isEnd value) else none)
      result result' := by
  have up (rs : List Nat) : valueAt (ch :: rs) (.mk children isEnd value) = valueAt rs child := by
    rw [valueAt_cons, at_, bind_some]
  have scalarChild : ScalarPaths (valueAt · child) := fun rs v holds r mem =>
    scalar (ch :: rs) v ((up rs).trans holds) r (mem_cons_of_mem ch mem)
  have rune {rs : List Nat} {v : Option V} (holds : valueAt rs child = some v) :
      path ++ encode (ch :: rs) = path ++ stringOfRune ch ++ encode rs := by
    have here : Scalar ch := scalar (ch :: rs) v ((up rs).trans holds) ch mem_cons_self
    rw [stringOfRune, if_pos here, encode_cons, append_assoc]
  refine ⟨fun rs v found => ?_, fun k other => (words scalarChild).kept k fun rs v holds same => ?_⟩
  · obtain ⟨head, holds⟩ := ite_none_right_eq_some.mp found
    obtain ⟨rs', rfl⟩ := head?_eq_some_iff.mp head
    rw [up] at holds
    rw [rune holds]
    exact (words scalarChild).added rs' v holds
  · refine other (ch :: rs) v ?_ (same.trans (rune holds).symm)
    rw [head?_cons, if_pos rfl, up, holds]

theorem Collects.node (order : Order)
    (words : Collects path (fun rs => if ∃ ch ∈ order.runes path (keysOf children), rs.head? = some ch
        then valueAt rs (.mk children isEnd value) else none)
      (if isEnd then update result path (some value) else result) result') :
    Collects path (valueAt · (.mk children isEnd value)) result result' := by
  have lt {ch : Nat} {rs : List Nat} {v : Option V}
      (holds : valueAt (ch :: rs) (.mk children isEnd value) = some v) :
      ∃ c ∈ order.runes path (keysOf children), (ch :: rs).head? = some c := by
    rw [valueAt_cons] at holds
    obtain ⟨child, found, _⟩ := bind_eq_some_iff.mp holds
    exact ⟨ch, (order.perm _ _).mem_iff.mpr (mem_keysOf (mem_of_get found)), rfl⟩
  refine ⟨fun rs v holds => ?_, fun k other => ?_⟩
  · cases rs with
    | nil =>
      obtain ⟨isEnd_, same⟩ := ite_none_right_eq_some.mp holds
      subst isEnd_
      cases same
      -- The turns of the loop write longer words only.
      rw [words.kept (path ++ encode []) fun rs' v' found same => ?_]
      · simp [encode]
      · obtain ⟨⟨c, _, head⟩, _⟩ := ite_none_right_eq_some.mp found
        obtain ⟨rs, rfl⟩ := head?_eq_some_iff.mp head
        have none_ := append_cancel_left same
        exact encodeRune_ne_nil c (append_eq_nil_iff.mp none_.symm).1
    | cons ch rs => exact words.added (ch :: rs) v (by rw [if_pos (lt holds), holds])
  · rw [words.kept k fun rs v found => ?_]
    · split
      · rename_i isEnd_
        subst isEnd_
        have ne := other [] value rfl
        rw [encode, flatMap_nil, append_nil] at ne
        exact update_of_ne ne _ _
      · rfl
    · exact other rs v (ite_none_right_eq_some.mp found).2

end Turns

theorem collectWords_collects (order : Order) (node : TrieNode V) (scalar : ScalarPaths (valueAt · node))
    (path : GoString) (result : Words V) :
    Collects path (valueAt · node) result (collectWords order path node result) := by
  induction node using TrieNode.byChildren generalizing path result with
  | step children isEnd value ih =>
    refine .node order (foldl_collects scalar (fun result ch => ?_) _ _)
    rw [collectChild_eq]
    cases at_ : get ch children with
    | none => exact collects_nothing at_ result
    | some child => exact .above scalar at_ fun scalarChild => ih ch child at_ scalarChild _ result

end Collecting

/-- A call of `Insert` with a valid key, or of `Delete` with an ASCII key. -/
structure Call (V : Type) where
  op : Op GoString (Option V)
  allowed : match op with
    | .insert key _ => Valid key
    | .delete key => ∀ b ∈ key, b < 0x80

def Trie.call (t : Trie V) (c : Call V) : Trie V :=
  match c.op with
  | .insert key value => t.insert key value
  | .delete key => (t.delete key).1

def run (calls : List (Call V)) : Trie V := calls.foldl Trie.call Trie.newTrie

def mapOf (calls : List (Call V)) : GoString → Option (Option V) := content (calls.map (·.op))

abbrev ValidString := {s : GoString // Valid s}

section Runs

/-- The trie holds the map at the paths of its keys, and nothing else. -/
structure Represents (t : Trie V) (m : GoString → Option (Option V)) : Prop where
  tidy : Tidy t.root
  scalar : ScalarPaths (valueAt · t.root)
  values : ∀ rs, (∀ r ∈ rs, Scalar r) → valueAt rs t.root = m (encode rs)

theorem encode_ascii {key : GoString} (small : ∀ b ∈ key, b < 0x80) :
    (∀ r ∈ key.map toNat, Scalar r) ∧ encode (key.map toNat) = key := by
  induction key with
  | nil => exact ⟨by simp, rfl⟩
  | cons b key ih =>
    obtain ⟨scalars, same⟩ := ih fun c mem => small c (mem_cons_of_mem b mem)
    have low := small b mem_cons_self
    have bound : b.toNat < 0x80 := low
    refine ⟨?_, ?_⟩
    · rw [map_cons, forall_mem_cons]
      exact ⟨.inl (by omega), scalars⟩
    · rw [map_cons, encode_cons, encodeRune_ascii low, same]
      rfl

variable {t : Trie V} {v : Option V} {m : GoString → Option (Option V)}

theorem Represents.call (rep : Represents t m)
    (c : Call V) : Represents (t.call c) (c.op.apply m) := by
  obtain ⟨op, allowed⟩ := c
  cases op with
  | insert key value =>
    obtain ⟨ks, scalars, rfl⟩ := allowed
    have values (rs : List Nat) : valueAt rs (t.insert (encode ks) value).root =
        if rs = ks then some value else valueAt rs t.root := by
      rw [Trie.insert, valueAt_insertRunes, runesOf_encode scalars]
    refine ⟨rep.tidy.insertRunes value _, fun rs v holds => ?_, fun rs scalars' => ?_⟩
    · change valueAt rs (t.insert (encode ks) value).root = some v at holds
      rw [values] at holds
      split at holds
      · rename_i same
        rw [same]
        exact scalars
      · exact rep.scalar rs v holds
    · change valueAt rs (t.insert (encode ks) value).root = _
      rw [values, Op.apply]
      by_cases same : rs = ks
      · rw [if_pos same, same, update_self]
      · have other : encode rs ≠ encode ks := fun equal =>
          same (encode_injective scalars' scalars equal)
        rw [if_neg same, update_of_ne other, rep.values rs scalars']
  | delete key =>
    obtain ⟨scalars, same⟩ := encode_ascii allowed
    have values (rs : List Nat) : valueAt rs (t.delete key).1.root =
        if rs = key.map toNat then none else valueAt rs t.root :=
      valueAt_deleteRunes (key.map toNat) rs t.root
    refine ⟨(rep.tidy.deleteRunes _).1, fun rs v holds => ?_, fun rs scalars' => ?_⟩
    · change valueAt rs (t.delete key).1.root = some v at holds
      rw [values] at holds
      exact rep.scalar rs v (ite_none_left_eq_some.mp holds).2
    · change valueAt rs (t.delete key).1.root = _
      rw [values, Op.apply]
      by_cases equal : rs = key.map toNat
      · rw [if_pos equal, equal, same, update_self]
      · have other : encode rs ≠ key := fun bytes =>
          equal (encode_injective scalars' scalars (bytes.trans same.symm))
        rw [if_neg equal, update_of_ne other, rep.values rs scalars']

theorem represents_run (calls : List (Call V)) : Represents (run calls) (mapOf calls) := by
  induction calls using List.reverseRecOn with
  | nil =>
    refine ⟨tidy_newNode, fun rs v holds => ?_, fun rs _ => valueAt_newNode rs⟩
    change valueAt rs newNode = some v at holds
    rw [valueAt_newNode] at holds
    cases holds
  | append_singleton calls c ih =>
    rw [run, foldl_append, mapOf, map_append]
    change Represents ((run calls).call c) (content (calls.map (·.op) ++ [c.op]))
    rw [content_concat]
    exact ih.call c

variable {calls : List (Call V)}

theorem mapOf_valid {k : GoString} (found : mapOf calls k = some v) : Valid k := by
  refine content_some_of_forall (P := Valid) ?_ found
  intro op mem
  obtain ⟨⟨op, allowed⟩, _, rfl⟩ := mem_map.mp mem
  cases op with
  | insert key value => exact allowed
  | delete key => exact .of_ascii allowed

theorem valueAt_append (start path : List Nat) (node : TrieNode V) :
    valueAt (start ++ path) node = (descend start node).bind (valueAt path) := by
  induction start generalizing node with
  | nil => rfl
  | cons ch start ih =>
    obtain ⟨children, isEnd, value⟩ := node
    rw [cons_append, valueAt_cons, descend]
    cases get ch children with
    | none => rfl
    | some child => exact ih child

theorem Tidy.descend {node below : TrieNode V} (tidy : Tidy node) {path : List Nat}
    (reached : descend path node = some below) : Tidy below ∧ (path ≠ [] → Alive below) := by
  induction path generalizing node with
  | nil =>
    cases reached
    exact ⟨tidy, fun nonempty => absurd rfl nonempty⟩
  | cons ch path ih =>
    cases tidy with
    | @mk children isEnd value tidies alives blank =>
      rw [PrefixTree.descend] at reached
      cases found : get ch children with
      | none =>
        rw [found] at reached
        cases reached
      | some child =>
        rw [found] at reached
        have := ih (tidies ch child found) reached
        refine ⟨this.1, fun _ => ?_⟩
        cases path with
        | nil =>
          cases reached
          exact alives ch _ found
        | cons c path => exact this.2 (by simp)

theorem Tidy.search (tidy : Tidy t.root) (key : GoString) :
    t.search key = (valueAt (runesOf key) t.root).elim (none, false) fun value => (value, true) := by
  rw [Trie.search, valueAt]
  cases reached : PrefixTree.descend (runesOf key) t.root with
  | none => rfl
  | some node =>
    obtain ⟨tidyNode, _⟩ := tidy.descend reached
    cases tidyNode with
    | @mk children isEnd value tidies alives blank =>
      cases isEnd with
      | true => rfl
      | false => rw [blank rfl]; rfl

theorem Represents.search (rep : Represents t m)
    {k : GoString} (valid : Valid k) :
    t.search k = match m k with
      | some value => (value, true)
      | none => (none, false) := by
  obtain ⟨ks, scalars, rfl⟩ := valid
  rw [rep.tidy.search, runesOf_encode scalars, rep.values ks scalars]
  cases m (encode ks) <;> rfl

theorem path_of_present {ps : List Nat} (scalars : ∀ r ∈ ps, Scalar r)
    {key : GoString} (found : mapOf calls key = some v) (starts : encode ps <+: key) :
    ∃ node path, descend ps (run calls).root = some node ∧ key = encode ps ++ encode path ∧
      valueAt path node = some v := by
  obtain ⟨ks, scalars', rfl⟩ := mapOf_valid found
  obtain ⟨path, rfl⟩ := (encode_prefix_iff scalars scalars').mp starts
  rw [← (represents_run calls).values _ scalars', valueAt_append] at found
  obtain ⟨node, reached, holds⟩ := bind_eq_some_iff.mp found
  exact ⟨node, path, reached, encode_append ps path, holds⟩

theorem present_of_path {ps path : List Nat} {node : TrieNode V}
    (reached : descend ps (run calls).root = some node) (holds : valueAt path node = some v) :
    (∀ r ∈ path, Scalar r) ∧ mapOf calls (encode ps ++ encode path) = some v := by
  have rep := represents_run calls
  have stored : valueAt (ps ++ path) (run calls).root = some v := by
    rw [valueAt_append, reached]
    exact holds
  have scalars := rep.scalar _ v stored
  refine ⟨fun r mem => scalars r (mem_append_right ps mem), ?_⟩
  rw [← encode_append, ← rep.values _ scalars, stored]

theorem findAllWithPrefix_run (calls : List (Call V)) (order : Order) {p : GoString}
    (valid : Valid p) (key : GoString) :
    (run calls).findAllWithPrefix order p key = if p <+: key then mapOf calls key else none := by
  obtain ⟨ps, scalars, rfl⟩ := valid
  rw [Trie.findAllWithPrefix, runesOf_encode scalars]
  by_cases present : encode ps <+: key ∧ ∃ v, mapOf calls key = some v
  · obtain ⟨starts, v, found⟩ := present
    obtain ⟨node, path, reached, rfl, holds⟩ := path_of_present scalars found starts
    rw [reached, if_pos starts, found]
    exact (collectWords_collects order node (fun _ _ holds => (present_of_path reached holds).1)
      (encode ps) _).added path v holds
  · have absent : (if encode ps <+: key then mapOf calls key else none) = none := by
      refine eq_none_iff_forall_ne_some.mpr fun v holds => present ?_
      obtain ⟨starts, found⟩ := ite_none_right_eq_some.mp holds
      exact ⟨starts, v, found⟩
    rw [absent]
    cases reached : descend ps (run calls).root with
    | none => rfl
    | some node =>
      refine (collectWords_collects order node (fun _ _ holds =>
        (present_of_path reached holds).1) (encode ps) _).kept key fun path v holds same => ?_
      rw [same] at present
      exact present ⟨prefix_append _ _, v, (present_of_path reached holds).2⟩

theorem startsWith_run (calls : List (Call V)) {p : GoString} (valid : Valid p) (nonempty : p ≠ []) :
    (run calls).startsWith p ↔ ∃ key, mapOf calls key ≠ none ∧ p <+: key := by
  obtain ⟨ps, scalars, rfl⟩ := valid
  rw [Trie.startsWith, runesOf_encode scalars, isSome_iff_exists]
  constructor
  · rintro ⟨node, reached⟩
    have filled : ps ≠ [] := by
      rintro rfl
      exact nonempty rfl
    obtain ⟨path, v, holds⟩ := ((represents_run calls).tidy.descend reached).2 filled
    refine ⟨encode ps ++ encode path, ?_, prefix_append _ _⟩
    rw [(present_of_path reached holds).2]
    exact some_ne_none v
  · rintro ⟨key, present, starts⟩
    obtain ⟨v, found⟩ := ne_none_iff_exists'.mp present
    obtain ⟨node, _, reached, _⟩ := path_of_present scalars found starts
    exact ⟨node, reached⟩

/-- `Search`, `FindAllWithPrefix` and `StartsWith` answer as the finite map does. -/
theorem refines (calls : List (Call V)) (order : Order) (k p : ValidString) :
    ((run calls).search k = match mapOf calls k with
      | some value => (value, true)
      | none => (none, false)) ∧
    (∀ key, (run calls).findAllWithPrefix order p key =
      if p.1 <+: key then mapOf calls key else none) ∧
    (p.1 ≠ [] → ((run calls).startsWith p ↔ ∃ key, mapOf calls key ≠ none ∧ p.1 <+: key)) :=
  ⟨(represents_run calls).search k.2, findAllWithPrefix_run calls order p.2,
    startsWith_run calls p.2⟩

end Runs

section Deleted

def letterA : ValidString := ⟨[0x61], .of_ascii (by decide +kernel)⟩

def lettersAB : ValidString := ⟨[0x61, 0x62], .of_ascii (by decide +kernel)⟩

private def calls : List (Call Nat) :=
  [⟨.insert letterA (some 1), letterA.2⟩, ⟨.insert lettersAB (some 2), lettersAB.2⟩,
    ⟨.delete lettersAB, by decide +kernel⟩]

private def anyOrder : Order := ⟨fun _ rs => rs, fun _ rs => .refl rs⟩

/-- The branch of `ab` is gone after the delete, that of `a` is not. -/
theorem refines_deleted :
    (run calls).search letterA = (some 1, true) ∧ (run calls).startsWith lettersAB = false ∧
      ¬ ∃ key, mapOf calls key ≠ none ∧ lettersAB.1 <+: key :=
  ⟨by decide +kernel, by decide +kernel,
    ((refines calls anyOrder letterA lettersAB).2.2 (by decide +kernel)).not.mp (by decide +kernel)⟩

end Deleted

end Monitor.PrefixTree
