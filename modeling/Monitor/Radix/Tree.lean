import Monitor.Lib.GoMap
import Monitor.Lib.GoText

/-! # The radix tree

`radix_tree.go`. The children of a node are a map from edge labels to nodes, and every
loop over them stops at the first label that matches, so the order in which Go goes
through a map can decide what happens. Each call gets such orders as a parameter, one
for every depth, because a call visits one node at each depth.
-/

namespace Monitor.Radix

open GoText

/-- The order in which a call goes through the labels of the node that it visits at a depth. -/
structure Order where
  labels : Nat → List GoString → List GoString
  perm : ∀ depth ls, (labels depth ls).Perm ls

/-- A value of an empty interface is `none` when it is nil. No function reads the key of a node. -/
inductive Node (V : Type) where
  | mk (key : GoString) (value : Option V) (isLeaf : Bool) (children : List (GoString × Node V))

section

variable {V : Type}

def Node.key : Node V → GoString
  | .mk key _ _ _ => key

def Node.isLeaf : Node V → Bool
  | .mk _ _ isLeaf _ => isLeaf

def Node.children : Node V → List (GoString × Node V)
  | .mk _ _ _ children => children

def Node.setKey (key : GoString) : Node V → Node V
  | .mk _ value isLeaf children => .mk key value isLeaf children

def newLeaf (key : GoString) (value : Option V) : Node V := .mk key value true []

/-- What overwriting a node does: it keeps its children. -/
def Node.overwrite (value : Option V) : Node V → Node V
  | .mk key _ _ children => .mk key value true children

end

def longestCommonPrefix : GoString → GoString → GoString
  | a :: as, b :: bs => if a ≠ b then [] else a :: longestCommonPrefix as bs
  | _, _ => []

section Insert

variable {V : Type} (order : Order) (value : Option V)

def splitNode (common label key : GoString) (child : Node V) : Node V :=
  let remaining := label.drop common.length
  let children := [(remaining, child.setKey remaining)]
  if key ≠ common then
    let remainingKey := key.drop common.length
    .mk common none false (GoMap.set remainingKey (newLeaf remainingKey value) children)
  else
    .mk common value true children

mutual

/-- `insert` at a node of some depth. -/
def insertNode (depth : Nat) (key : GoString) : Node V → Node V
  | .mk own v isLeaf children =>
    match (order.labels depth (GoMap.keysOf children)).find?
        (fun label => longestCommonPrefix label key ≠ []) with
    | none => .mk own v isLeaf (GoMap.set key (newLeaf key value) children)
    | some label =>
      let common := longestCommonPrefix label key
      if common = label then
        .mk own v isLeaf (insertBelow depth label (key.drop label.length) children)
      else
        match GoMap.get label children with
        | none => .mk own v isLeaf children
        | some child =>
          if common = key then
            .mk own v isLeaf (GoMap.set label (child.overwrite value) children)
          else
            .mk own v isLeaf (GoMap.set common (splitNode value common label key child)
              (GoMap.erase label children))

/-- The call of `insert` for the child of a label. -/
def insertBelow (depth : Nat) (label key : GoString) :
    List (GoString × Node V) → List (GoString × Node V)
  | [] => []
  | (l, child) :: children =>
    if l = label then
      (l, insertNode (depth + 1) key child) :: children
    else
      (l, child) :: insertBelow depth label key children

end

end Insert

section Search

variable {V : Type} (order : Order)

mutual

def searchNode (depth : Nat) (key : GoString) : Node V → Option V × Bool
  | .mk _ value isLeaf children =>
    if key = [] ∧ isLeaf then
      (value, true)
    else
      match (order.labels depth (GoMap.keysOf children)).find? (fun label => label.isPrefixOf key) with
      | none => (none, false)
      | some label => searchBelow depth label (key.drop label.length) children

def searchBelow (depth : Nat) (label key : GoString) : List (GoString × Node V) → Option V × Bool
  | [] => (none, false)
  | (l, child) :: children =>
    if l = label then searchNode (depth + 1) key child else searchBelow depth label key children

end

mutual

/-- `delete` at a node of some depth, which also tells whether it found the key. -/
def deleteNode (depth : Nat) (key : GoString) : Node V → Node V × Bool
  | .mk own value isLeaf children =>
    if key = [] ∧ isLeaf then
      (.mk own none false children, true)
    else
      match (order.labels depth (GoMap.keysOf children)).find? (fun label => label.isPrefixOf key) with
      | none => (.mk own value isLeaf children, false)
      | some label =>
        let (children, found) := deleteBelow depth label (key.drop label.length) children
        (.mk own value isLeaf children, found)

def deleteBelow (depth : Nat) (label key : GoString) :
    List (GoString × Node V) → List (GoString × Node V) × Bool
  | [] => ([], false)
  | (l, child) :: children =>
    if l = label then
      let (child, found) := deleteNode (depth + 1) key child
      if found ∧ child.children.length = 0 ∧ ¬ child.isLeaf then
        (children, found)
      else
        ((l, child) :: children, found)
    else
      let (children, found) := deleteBelow depth label key children
      ((l, child) :: children, found)

end

end Search

section PrefixSearch

variable {V : Type}

mutual

/-- The loop of `PrefixSearch` from a node on, down to the node that it stops at and its path. -/
def descendNode (order : Order) (start : GoString) (depth : Nat) (currentPrefix : GoString) :
    Node V → Node V × GoString
  | .mk own value isLeaf children =>
    match (order.labels depth (GoMap.keysOf children)).find?
        (fun label => (currentPrefix ++ label).isPrefixOf start) with
    | none => (.mk own value isLeaf children, currentPrefix)
    | some label => descendBelow order start depth currentPrefix label children

def descendBelow (order : Order) (start : GoString) (depth : Nat) (currentPrefix label : GoString) :
    List (GoString × Node V) → Node V × GoString
  | [] => (.mk [] none false [], currentPrefix)
  | (l, child) :: children =>
    if l = label then
      if currentPrefix ++ label = start then
        (child, currentPrefix ++ label)
      else
        descendNode order start (depth + 1) (currentPrefix ++ label) child
    else
      descendBelow order start depth currentPrefix label children

end

/-- The order in which `collectPrefixMatches` goes through the labels of the node of a path. -/
structure Tour where
  labels : GoString → List GoString → List GoString
  perm : ∀ path ls, (labels path ls).Perm ls

/-- The result map of `PrefixSearch`. -/
abbrev Matches (V : Type) := GoString → Option (Option V)

mutual

def collectPrefixMatches (tour : Tour) (start currentPath : GoString) : Node V → Matches V → Matches V
  | .mk _ value isLeaf children, result =>
    (tour.labels currentPath (GoMap.keysOf children)).foldl
      (fun result label => collectBelow tour start currentPath label children result)
      (if isLeaf ∧ start.isPrefixOf currentPath then Function.update result currentPath (some value)
        else result)

/-- The call for the child of a label. -/
def collectBelow (tour : Tour) (start currentPath label : GoString) :
    List (GoString × Node V) → Matches V → Matches V
  | [], result => result
  | (l, child) :: children, result =>
    if l = label then
      collectPrefixMatches tour start (currentPath ++ label) child result
    else
      collectBelow tour start currentPath label children result

end

end PrefixSearch

structure RadixTree (V : Type) where
  root : Node V
  size : Int

inductive InsertError where
  | emptyKey
  deriving DecidableEq

namespace RadixTree

variable {V : Type}

def newRadixTree : RadixTree V := ⟨.mk [] none false [], 0⟩

def insert (order : Order) (t : RadixTree V) (key : GoString) (value : Option V) :
    RadixTree V × Option InsertError :=
  if key = [] then (t, some .emptyKey) else (⟨insertNode order value 0 key t.root, t.size + 1⟩, none)

def search (order : Order) (t : RadixTree V) (key : GoString) : Option V × Bool :=
  if key = [] then (none, false) else searchNode order 0 key t.root

def delete (order : Order) (t : RadixTree V) (key : GoString) : RadixTree V × Bool :=
  if key = [] then
    (t, false)
  else
    let (root, found) := deleteNode order 0 key t.root
    (⟨root, if found then t.size - 1 else t.size⟩, found)

def prefixSearch (order : Order) (tour : Tour) (t : RadixTree V) (start : GoString) : Matches V :=
  if start = [] then
    fun _ => none
  else
    let (node, currentPrefix) := descendNode order start 0 [] t.root
    if currentPrefix.isPrefixOf start then
      collectPrefixMatches tour start currentPrefix node fun _ => none
    else
      fun _ => none

end RadixTree

end Monitor.Radix
