import Monitor.PrefixTree.Trie

/-! # The compressed prefix tree

`PatriciaTrie` of `prefix_tree.go`. Keys are compared byte by byte and the edge to a child
is the first byte of the child's prefix. `insert` is modelled with all its branches; the
root keeps the empty prefix it starts with, so from the root only one of them is taken.
-/

namespace Monitor.PrefixTree

open GoText List GoMap

inductive PatriciaNode (V : Type) where
  | mk (nodePrefix : GoString) (children : List (Nat × PatriciaNode V)) (isEnd : Bool)
      (value : Option V)

section

variable {V : Type}

def PatriciaNode.leaf (key : GoString) (value : Option V) : PatriciaNode V := .mk key [] true value

/-- The loop that counts the bytes two strings have in common. -/
def commonLength : GoString → GoString → Nat
  | a :: as, b :: bs => if a = b then commonLength as bs + 1 else 0
  | _, _ => 0

/-- The node in the place of one whose prefix has no byte in common with the key. -/
def insertApart (nodePrefix : GoString) (children : List (Nat × PatriciaNode V)) (isEnd : Bool)
    (v : Option V) (key : GoString) (value : Option V) : PatriciaNode V :=
  match key with
  | [] => .mk nodePrefix children isEnd v
  | k :: _ =>
    let beside : PatriciaNode V :=
      .mk nodePrefix (GoMap.set k.toNat (.leaf key value) children) isEnd v
    match nodePrefix with
    | [] => beside
    | p :: _ =>
      if k < p then
        .mk [] (GoMap.set p.toNat (.mk nodePrefix children isEnd v)
          (GoMap.set k.toNat (.leaf key value) [])) false none
      else
        beside

/-- The node that takes over the first `i` bytes of a longer prefix. -/
def splitNode (nodePrefix : GoString) (children : List (Nat × PatriciaNode V)) (isEnd : Bool)
    (v : Option V) (i : Nat) (key : GoString) (value : Option V) : PatriciaNode V :=
  let origNode : PatriciaNode V := .mk (nodePrefix.drop i) children isEnd v
  let split := GoMap.set ((nodePrefix.drop i).headD 0).toNat origNode []
  match key.drop i with
  | [] => .mk (nodePrefix.take i) split true value
  | c :: rest =>
    .mk (nodePrefix.take i) (GoMap.set c.toNat (.leaf (c :: rest) value) split) false none

mutual

/-- `insert` into a node that is there. -/
def insertNode (value : Option V) : PatriciaNode V → GoString → PatriciaNode V
  | .mk nodePrefix children isEnd v, key =>
    if key = [] then
      .mk nodePrefix children true value
    else
      let i := commonLength nodePrefix key
      if i = 0 then
        insertApart nodePrefix children isEnd v key value
      else if i = nodePrefix.length then
        match key.drop i with
        | [] => .mk nodePrefix children true value
        | c :: rest =>
          .mk nodePrefix (GoMap.set c.toNat (insertChild value c.toNat children (c :: rest))
            children) isEnd v
      else
        splitNode nodePrefix children isEnd v i key value

/-- The node to be put under a byte: the child there with the key inserted, or a new one. -/
def insertChild (value : Option V) (ch : Nat) :
    List (Nat × PatriciaNode V) → GoString → PatriciaNode V
  | [], key => .leaf key value
  | (c, child) :: children, key =>
    if c = ch then insertNode value child key else insertChild value ch children key

end

mutual

/-- The loop of `Search` from a node on. -/
def searchNode : PatriciaNode V → GoString → Option V × Bool
  | .mk nodePrefix children isEnd value, key =>
    if key = [] then
      (value, isEnd)
    else if nodePrefix.isPrefixOf key then
      match key.drop nodePrefix.length with
      | [] => (value, isEnd)
      | c :: rest => searchChild c.toNat children (c :: rest)
    else
      (none, false)

def searchChild (ch : Nat) : List (Nat × PatriciaNode V) → GoString → Option V × Bool
  | [], _ => (none, false)
  | (c, child) :: children, key =>
    if c = ch then searchNode child key else searchChild ch children key

end

mutual

/-- The loop of `StartsWith` from a node on. -/
def startsWithNode : PatriciaNode V → GoString → Bool
  | .mk nodePrefix children _ _, start =>
    if start = [] then
      true
    else if nodePrefix.isPrefixOf start then
      match start.drop nodePrefix.length with
      | [] => true
      | c :: rest => startsWithChild c.toNat children (c :: rest)
    else
      start.isPrefixOf nodePrefix

def startsWithChild (ch : Nat) : List (Nat × PatriciaNode V) → GoString → Bool
  | [], _ => false
  | (c, child) :: children, start =>
    if c = ch then startsWithNode child start else startsWithChild ch children start

end

end

structure PatriciaTrie (V : Type) where
  root : PatriciaNode V

namespace PatriciaTrie

variable {V : Type}

def newPatriciaTrie : PatriciaTrie V := ⟨.mk [] [] false none⟩

def insert (pt : PatriciaTrie V) (key : GoString) (value : Option V) : PatriciaTrie V :=
  ⟨insertNode value pt.root key⟩

def search (pt : PatriciaTrie V) (key : GoString) : Option V × Bool := searchNode pt.root key

def startsWith (pt : PatriciaTrie V) (start : GoString) : Bool := startsWithNode pt.root start

end PatriciaTrie

section Lookup

variable {V : Type}

theorem searchChild_eq (ch : Nat) (children : List (Nat × PatriciaNode V)) (key : GoString) :
    searchChild ch children key =
      match get ch children with
      | none => (none, false)
      | some child => searchNode child key := by
  induction children with
  | nil => rfl
  | cons entry children ih =>
    simp only [searchChild, get_cons]
    split
    · rfl
    · exact ih

theorem startsWithChild_eq (ch : Nat) (children : List (Nat × PatriciaNode V)) (start : GoString) :
    startsWithChild ch children start =
      match get ch children with
      | none => false
      | some child => startsWithNode child start := by
  induction children with
  | nil => rfl
  | cons entry children ih =>
    simp only [startsWithChild, get_cons]
    split
    · rfl
    · exact ih

theorem searchNode_leaf {key : GoString} (ne : key ≠ []) (stored : GoString) (value : Option V) :
    searchNode (.leaf stored value) key = if key = stored then (value, true) else (none, false) := by
  simp only [PatriciaNode.leaf, searchNode, if_neg ne, List.isPrefixOf_iff_prefix]
  by_cases starts : stored <+: key
  · obtain ⟨rest, same⟩ := starts
    subst same
    cases rest with
    | nil => simp
    | cons c rest => simp [searchChild]
  · have other : key ≠ stored := fun same => starts (same ▸ prefix_rfl)
    simp only [if_neg starts, if_neg other]

theorem startsWithNode_leaf {start : GoString} (ne : start ≠ []) (stored : GoString)
    (value : Option V) : startsWithNode (.leaf stored value) start = start.isPrefixOf stored := by
  simp only [PatriciaNode.leaf, startsWithNode, if_neg ne, List.isPrefixOf_iff_prefix]
  by_cases starts : stored <+: start
  · obtain ⟨rest, same⟩ := starts
    subst same
    simp only [prefix_append, if_true, drop_left]
    cases rest with
    | nil => simp
    | cons c rest =>
      have longer : ¬ stored ++ c :: rest <+: stored := fun back => by
        have := back.length_le
        simp at this
      exact (Bool.eq_false_iff.mpr fun back => longer (List.isPrefixOf_iff_prefix.mp back)).symm
  · simp only [if_neg starts]

end Lookup

section Root

variable {V : Type}

theorem insertNode_root (value : Option V) (children : List (Nat × PatriciaNode V)) (isEnd : Bool)
    (v : Option V) (c : UInt8) (rest : GoString) :
    insertNode value (.mk [] children isEnd v) (c :: rest) =
      .mk [] (set c.toNat (.leaf (c :: rest) value) children) isEnd v := by
  simp [insertNode, commonLength, insertApart]

end Root

end Monitor.PrefixTree
