import Monitor.Lib.GoMap
import Monitor.Lib.Utf8

/-! # The prefix tree

`Trie` of `prefix_tree.go`. The edges are runes. `Insert`, `Search`, `StartsWith` and
`FindAllWithPrefix` go through a key rune by rune, `Delete` byte by byte. Every method
holds the lock of the trie, so the methods are functions on its nodes. The loop of
`collectWords` over the children gets its order as a parameter.
-/

namespace Monitor.PrefixTree

open GoText Utf8

/-- A value of an empty interface is `none` when it is nil. -/
inductive TrieNode (V : Type) where
  | mk (children : List (Nat × TrieNode V)) (isEnd : Bool) (value : Option V)

section

variable {V : Type}

def newNode : TrieNode V := .mk [] false none

def insertRunes (value : Option V) : List Nat → TrieNode V → TrieNode V
  | [], .mk children _ _ => .mk children true value
  | ch :: rest, .mk children isEnd v =>
    let child := (GoMap.get ch children).getD newNode
    .mk (GoMap.set ch (insertRunes value rest child) children) isEnd v

/-- The node at the end of a path; the loop of `Search`, `StartsWith` and `FindAllWithPrefix`. -/
def descend : List Nat → TrieNode V → Option (TrieNode V)
  | [], node => some node
  | ch :: rest, .mk children _ _ =>
    match GoMap.get ch children with
    | none => none
    | some child => descend rest child

/-- `delete` from a node on; it tells whether the parent should drop the node. -/
def deleteRunes : List Nat → TrieNode V → TrieNode V × Bool
  | [], .mk children isEnd value =>
    if !isEnd then
      (.mk children isEnd value, false)
    else
      (.mk children false none, decide (children.length = 0))
  | ch :: rest, .mk children isEnd value =>
    match GoMap.get ch children with
    | none => (.mk children isEnd value, false)
    | some child =>
      let (child, shouldDeleteChild) := deleteRunes rest child
      if shouldDeleteChild then
        let children := GoMap.erase ch children
        (.mk children isEnd value, !isEnd && decide (children.length = 0))
      else
        (.mk (GoMap.set ch child children) isEnd value, false)

/-- The order in which the loop of `collectWords` goes through the children of the node of a path. -/
structure Order where
  runes : GoString → List Nat → List Nat
  perm : ∀ path rs, (runes path rs).Perm rs

/-- The result map of `FindAllWithPrefix`. -/
abbrev Words (V : Type) := GoString → Option (Option V)

variable (order : Order)

mutual

def collectWords (path : GoString) : TrieNode V → Words V → Words V
  | .mk children isEnd value, result =>
    let result := if isEnd then Function.update result path (some value) else result
    (order.runes path (GoMap.keysOf children)).foldl
      (fun result ch => collectChild path ch children result) result

/-- The turn of the loop for the child of a rune. -/
def collectChild (path : GoString) (ch : Nat) : List (Nat × TrieNode V) → Words V → Words V
  | [], result => result
  | (c, child) :: children, result =>
    if c = ch then
      collectWords (path ++ stringOfRune ch) child result
    else
      collectChild path ch children result

end

end

structure Trie (V : Type) where
  root : TrieNode V

namespace Trie

variable {V : Type}

def newTrie : Trie V := ⟨newNode⟩

def insert (t : Trie V) (key : GoString) (value : Option V) : Trie V :=
  ⟨insertRunes value (runesOf key) t.root⟩

def search (t : Trie V) (key : GoString) : Option V × Bool :=
  match descend (runesOf key) t.root with
  | none => (none, false)
  | some (.mk _ isEnd value) => (value, isEnd)

def startsWith (t : Trie V) (start : GoString) : Bool := (descend (runesOf start) t.root).isSome

/-- `Delete`: the rune at a depth is a byte of the key. -/
def delete (t : Trie V) (key : GoString) : Trie V × Bool :=
  let (root, dropped) := deleteRunes (key.map UInt8.toNat) t.root
  (⟨root⟩, dropped)

def findAllWithPrefix (order : Order) (t : Trie V) (start : GoString) : Words V :=
  match descend (runesOf start) t.root with
  | none => fun _ => none
  | some node => collectWords order start node fun _ => none

end Trie

end Monitor.PrefixTree
