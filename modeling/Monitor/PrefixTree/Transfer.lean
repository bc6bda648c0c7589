import Monitor.Lib.RWMutex
import Monitor.PrefixTree.Deletion

/-! # Exporting a trie and importing it again

`Export` collects all words, `Import` inserts them into an emptied trie. Both hold the mutex of
their trie and call another method that asks for it: `GetStats` reads beside a reader, which
is granted, but `Insert` asks for the lock that `Import` already has.
-/

namespace Monitor.PrefixTree

open GoText Utf8 Blocking List Option GoMap

variable {V : Type}

section Counting

mutual

def countNodes : TrieNode V → Nat
  | .mk children _ _ => 1 + countNodesBelow children

def countNodesBelow : List (Nat × TrieNode V) → Nat
  | [] => 0
  | (_, child) :: children => countNodes child + countNodesBelow children

end

mutual

def countWords : TrieNode V → Nat
  | .mk children isEnd _ => (if isEnd then 1 else 0) + countWordsBelow children

def countWordsBelow : List (Nat × TrieNode V) → Nat
  | [] => 0
  | (_, child) :: children => countWords child + countWordsBelow children

end

mutual

def maxDepth (depth : Nat) : TrieNode V → Nat
  | .mk children _ _ => maxDepthBelow depth depth children

/-- The loop over the children of a node at a depth, with the largest depth so far. -/
def maxDepthBelow (depth maxChildDepth : Nat) : List (Nat × TrieNode V) → Nat
  | [] => maxChildDepth
  | (_, child) :: children =>
    let childDepth := maxDepth (depth + 1) child
    maxDepthBelow depth (if childDepth > maxChildDepth then childDepth else maxChildDepth) children

end

end Counting

structure TrieStats where
  nodeCount : Nat
  wordCount : Nat
  maxDepth : Nat
  memoryUsage : Nat

def statsOf (root : TrieNode V) : TrieStats where
  nodeCount := countNodes root
  wordCount := countWords root
  maxDepth := maxDepth 0 root
  memoryUsage := countNodes root * 100

/-- The loop that copies the words of a child. -/
def copyWords (childWords words : List (GoString × Option V)) : List (GoString × Option V) :=
  childWords.foldl (fun words e => GoMap.set e.1 e.2 words) words

section Exporting

variable (order : Order)

mutual

def exportWords (path : GoString) : TrieNode V → List (GoString × Option V)
  | .mk children isEnd value =>
    (order.runes path (GoMap.keysOf children)).foldl
      (fun words ch => copyWords (exportChild path ch children) words)
      (if isEnd then [(path, value)] else [])

def exportChild (path : GoString) (ch : Nat) : List (Nat × TrieNode V) → List (GoString × Option V)
  | [] => []
  | (c, child) :: children =>
    if c = ch then exportWords (path ++ stringOfRune ch) child else exportChild path ch children

end

end Exporting

namespace Trie

def lockedInsert (key : GoString) (value : Option V) : Blocking (Trie V) Unit :=
  withLock fun g => some ((), { g with value := g.value.insert key value })

def lockedSearch (key : GoString) : Blocking (Trie V) (Option V × Bool) :=
  withRLock fun g => some (g.value.search key, g)

def getStats : Blocking (Trie V) TrieStats := withRLock fun g => some (statsOf g.value.root, g)

/-- The map that `Export` returns, with its two keys. -/
structure Exported (V : Type) where
  words : List (GoString × Option V)
  stats : TrieStats

def export_ (order : Order) : Blocking (Trie V) (Exported V) :=
  withRLock fun g =>
    let words := exportWords order [] g.value.root
    (getStats g).map fun r => (⟨words, r.1⟩, r.2)

/-- The loop of `Import`. -/
def insertWords : List (GoString × Option V) → Blocking (Trie V) Unit
  | [], g => some ((), g)
  | (key, value) :: words, g => (lockedInsert key value g).bind fun r => insertWords words r.2

/-- `Import` of data whose words, if there are any, are gone through as listed. -/
def import_ (words : Option (List (GoString × Option V))) : Blocking (Trie V) Unit :=
  withLock fun g => insertWords (words.getD []) { g with value := newTrie }

end Trie

variable (order : Order)

section Words

def lookup (words : List (GoString × Option V)) : Words V := fun k => GoMap.get k words

theorem lookup_copyWords {childWords : List (GoString × Option V)}
    (nodup : (keysOf childWords).Nodup) (words : List (GoString × Option V)) (k : GoString) :
    lookup (copyWords childWords words) k = (lookup childWords k).or (lookup words k) := by
  induction childWords generalizing words with
  | nil => rfl
  | cons e childWords ih =>
    obtain ⟨fresh, later⟩ := nodup_cons.mp nodup
    refine (ih later (set e.1 e.2 words)).trans ?_
    unfold lookup
    rw [get_set, get_cons]
    by_cases same : e.1 = k
    · have none_ : get k childWords = none := by
        subst same
        exact eq_none_iff_forall_ne_some.mpr fun v found =>
          fresh (mem_keysOf (mem_of_get found))
      rw [if_pos same, if_pos same, none_]
      rfl
    · rw [if_neg same, if_neg same]

theorem copyWords_nodup (childWords : List (GoString × Option V)) {words : List (GoString × Option V)}
    (nodup : (keysOf words).Nodup) : (keysOf (copyWords childWords words)).Nodup := by
  induction childWords generalizing words with
  | nil => exact nodup
  | cons e childWords ih => exact ih (keysOf_set_nodup nodup e.1 e.2)

theorem Collects.copied {path : GoString} {values : List Nat → Option (Option V)} {child : Words V}
    (words : Collects path values (fun _ => none) child) (result : Words V) :
    Collects path values result fun k => (child k).or (result k) where
  added := by
    intro rs v holds
    rw [words.added rs v holds]
    rfl
  kept := by
    intro k other
    rw [words.kept k other]
    rfl

theorem exportChild_eq (path : GoString) (ch : Nat) (children : List (Nat × TrieNode V)) :
    exportChild order path ch children =
      ((get ch children).map (exportWords order (path ++ stringOfRune ch))).getD [] := by
  induction children with
  | nil => rfl
  | cons e children ih =>
    obtain ⟨c, child⟩ := e
    rw [exportChild, get_cons, ih]
    by_cases same : c = ch
    · simp only [if_pos same, map_some, getD_some]
    · simp only [if_neg same]

theorem exportWords_nodup (node : TrieNode V) (path : GoString) :
    (keysOf (exportWords order path node)).Nodup := by
  cases node with
  | mk children isEnd value =>
    rw [exportWords]
    have first : (keysOf (if isEnd then [(path, value)] else [])).Nodup := by
      split <;> simp [keysOf]
    generalize (if isEnd then [(path, value)] else []) = words at first ⊢
    induction order.runes path (keysOf children) generalizing words with
    | nil => exact first
    | cons ch chs ih => exact ih _ (copyWords_nodup _ first)

theorem exportWords_collects (node : TrieNode V) (scalar : ScalarPaths (valueAt · node))
    (path : GoString) :
    Collects path (valueAt · node) (fun _ => none) (lookup (exportWords order path node)) := by
  induction node using TrieNode.byChildren generalizing path with
  | step children isEnd value ih =>
    have turns : lookup (exportWords order path (.mk children isEnd value)) =
        (order.runes path (keysOf children)).foldl
          (fun words ch k => (lookup (exportChild order path ch children) k).or (words k))
          (lookup (if isEnd then [(path, value)] else [])) := by
      refine (foldl_hom lookup fun words ch => ?_).symm
      funext k
      refine (lookup_copyWords ?_ words k).symm
      rw [exportChild_eq]
      cases get ch children with
      | none => exact nodup_nil
      | some child => exact exportWords_nodup order child _
    have first : lookup (if isEnd then [(path, value)] else []) =
        if isEnd then Function.update (fun _ => none) path (some value) else fun _ => none := by
      funext k
      cases isEnd with
      | false => rfl
      | true =>
        by_cases same : path = k
        · subst same
          simp [lookup, GoMap.get]
        · simp [lookup, GoMap.get, same, Function.update_of_ne (Ne.symm same)]
    rw [turns, first]
    refine .node order (foldl_collects scalar (fun result ch => ?_) _ _)
    refine Collects.copied ?_ result
    rw [exportChild_eq]
    cases at_ : get ch children with
    | none => exact collects_nothing at_ _
    | some child => exact .above scalar at_ fun scalarChild => ih ch child at_ scalarChild _

theorem scalar_built (inserts : List (ValidString × Option V)) :
    ScalarPaths (valueAt · (built inserts).root) := by
  intro rs v holds
  have present : valueAt rs (built inserts).root ≠ none := ne_of_eq_of_ne holds (some_ne_none v)
  obtain ⟨i, _, rfl⟩ := (valueAt_built inserts rs).mp present
  obtain ⟨_, ks, scalars, rfl⟩ := i.1
  rw [runesOf_encode scalars]
  exact scalars

theorem exportWords_newNode (path : GoString) :
    exportWords order path (newNode : TrieNode V) = [] := by
  rw [newNode, exportWords, (order.perm path (keysOf [])).eq_nil]
  rfl

theorem exportWords_ne_nil {inserts : List (ValidString × Option V)} (some_ : inserts ≠ []) :
    exportWords order [] (built inserts).root ≠ [] := by
  intro empty
  obtain ⟨i, mem⟩ := exists_mem_of_ne_nil inserts some_
  obtain ⟨v, holds⟩ := ne_none_iff_exists'.mp
    ((valueAt_built inserts (runesOf i.1)).mpr ⟨i, mem, rfl⟩)
  have added := (exportWords_collects order _ (scalar_built inserts) []).added _ v holds
  rw [empty] at added
  cases added

end Words

/-- `Import` of what `Export` gives returns, in whatever order it goes through the words, and the
    trie answers every search as the exported one does. -/
def Transfers (order : Order) (source target : Guarded (Trie V)) : Prop :=
  ∃ data source', Trie.export_ order source = some (data, source') ∧
    ∀ words, words.Perm data.words →
      ∃ target', Trie.import_ (some words) target = some ((), target') ∧
        ∀ key, ∃ answer, Trie.lockedSearch key target' = some (answer, target') ∧
          Trie.lockedSearch key source' = some (answer, source')

theorem export_free (t : Trie V) : Trie.export_ order ⟨.free, t⟩ =
      some (⟨exportWords order [] t.root, statsOf t.root⟩, ⟨.free, t⟩) := rfl

theorem import_blocks (e : GoString × Option V) (words : List (GoString × Option V)) (t : Trie V) :
    Trie.import_ (some (e :: words)) ⟨.free, t⟩ = none := by
  have blocked : Trie.lockedInsert e.1 e.2 ⟨⟨0, true⟩, Trie.newTrie⟩ = none := withLock_held _ rfl
  rfl

/-- A trie can be transferred exactly when nothing was inserted into it. -/
theorem transfers_iff (order : Order) (inserts : List (ValidString × Option V)) (target : Trie V) :
    Transfers order ⟨.free, built inserts⟩ ⟨.free, target⟩ ↔ inserts = [] := by
  constructor
  · rintro ⟨data, source', exported, imports⟩
    by_contra some_
    cases exported
    obtain ⟨e, words, shape⟩ := exists_cons_of_ne_nil (exportWords_ne_nil order some_)
    obtain ⟨target', returned, _⟩ := imports (e :: words) (by rw [shape])
    cases returned
  · intro none_
    subst none_
    refine ⟨_, _, export_free order _, fun words same => ?_⟩
    have empty : words = [] := by
      rw [show exportWords order [] (built ([] : List (ValidString × Option V))).root = [] from
        exportWords_newNode order []] at same
      exact same.eq_nil
    subst empty
    exact ⟨⟨.free, Trie.newTrie⟩, rfl, fun key => ⟨_, rfl, rfl⟩⟩

section Blocked

private def listed : Order := ⟨fun _ rs => rs, fun _ rs => .refl rs⟩

/-- A trie with one word is exported, and the import of it never returns. -/
theorem import_never_returns :
    (∃ data, Trie.export_ listed ⟨.free, built [(letterA, some 1)]⟩ =
        some (data, ⟨.free, built [(letterA, some 1)]⟩) ∧ data.words = [([0x61], some 1)]) ∧
      Trie.import_ (some [([0x61], some 1)]) ⟨.free, Trie.newTrie⟩ = none ∧
      ¬ Transfers listed ⟨.free, built [(letterA, some 1)]⟩ ⟨.free, Trie.newTrie⟩ := by
  have words : exportWords listed [] (built [(letterA, some 1)]).root = [([0x61], some 1)] := by
    decide +kernel
  refine ⟨⟨_, export_free listed _, words⟩, import_blocks _ _ _, ?_⟩
  rintro ⟨data, source', exported, imports⟩
  cases exported
  obtain ⟨target', returned, _⟩ := imports [([0x61], some 1)] (.refl _)
  cases returned

end Blocked

end Monitor.PrefixTree
