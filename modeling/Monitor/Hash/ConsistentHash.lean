import Monitor.Lib.GoText
import Monitor.Lib.PointRing

/-! # Consistent hashing

`ConsistentHash` of `consistent_hash.go`. The hash function is any function from
strings to `uint32`. The ring may hold a point several times, when labels of
different nodes collide; the map from points to nodes then keeps the last owner.
`Valid` is what survives every sequence of calls, collisions included.
-/

namespace Monitor.Hash

open GoText PointRing List Function Option

abbrev Point := Fin (2 ^ 32)

structure ConsistentHash where
  hashFunc : GoString → Point
  replicas : Int
  hashRing : List Point
  nodeMap : Point → Option GoString
  nodes : List GoString

/-- `NewConsistentHash` with a given hash function. -/
def newConsistentHash (replicas : Int) (hashFunc : GoString → Point) : ConsistentHash where
  hashFunc := hashFunc
  replicas := replicas
  hashRing := []
  nodeMap := fun _ => none
  nodes := []

namespace ConsistentHash

/-- The label of virtual node `i`: the number and the name with nothing in between. -/
def label (i : Nat) (node : GoString) : GoString := itoa i ++ node

def point (c : ConsistentHash) (node : GoString) (i : Nat) : Point := c.hashFunc (label i node)

/-- The ring points of a node, in the order of its virtual nodes. -/
def points (c : ConsistentHash) (node : GoString) : List Point :=
  (List.range c.replicas.toNat).map (c.point node)

/-- The body of the loop of `Add`. -/
def addNode (c : ConsistentHash) (node : GoString) : ConsistentHash :=
  if node ∈ c.nodes then
    c
  else
    (c.points node).foldl
      (fun c hash =>
        { c with
          hashRing := c.hashRing ++ [hash]
          nodeMap := update c.nodeMap hash (some node) })
      { c with nodes := c.nodes ++ [node] }

def add (c : ConsistentHash) (nodes : List GoString) : ConsistentHash :=
  let c := nodes.foldl addNode c
  { c with hashRing := c.hashRing.insertionSort (· ≤ ·) }

def remove (c : ConsistentHash) (node : GoString) : ConsistentHash :=
  if node ∈ c.nodes then
    let nodeMap := (c.points node).foldl (fun m hash => update m hash none) c.nodeMap
    { c with
      nodes := c.nodes.erase node
      nodeMap := nodeMap
      hashRing := c.hashRing.filter fun hash => (nodeMap hash).isSome }
  else
    c

def reset (c : ConsistentHash) : ConsistentHash :=
  { c with hashRing := [], nodeMap := fun _ => none, nodes := [] }

/-- The index both lookups start from: a binary search that wraps around. -/
def lookupIndex (c : ConsistentHash) (hash : Point) : Nat :=
  let idx := search c.hashRing.length (notBelow c.hashRing hash)
  if idx = c.hashRing.length then 0 else idx

/-- The node at a ring index; a missing map entry reads as the empty string. -/
def nodeAt (c : ConsistentHash) (idx : Nat) : GoString :=
  ((c.hashRing[idx]?).bind c.nodeMap).getD []

def get (c : ConsistentHash) (key : GoString) : Except String GoString :=
  if c.hashRing.length = 0 then
    .error "hash ring is empty"
  else
    .ok (c.nodeAt (c.lookupIndex (c.hashFunc key)))

/-- What `GetN` comes to: the loop need not end, and a negative count is no slice capacity. -/
inductive GetNResult where
  | ok (nodes : List GoString)
  | ringEmpty
  | notEnough (have_ need : Int)
  | panic
  | running
  deriving DecidableEq

/-- The loop of `GetN`, for so many iterations. The visited nodes are those of the result. -/
def getNLoop (c : ConsistentHash) (n : Nat) : Nat → Nat → List GoString → GetNResult
  | iterations, idx, result =>
    if result.length < n then
      match iterations with
      | 0 => .running
      | iterations + 1 =>
        let node := c.nodeAt idx
        c.getNLoop n iterations ((idx + 1) % c.hashRing.length)
          (if node ∈ result then result else result ++ [node])
    else
      .ok result

def getN (c : ConsistentHash) (iterations : Nat) (key : GoString) (n : Int) : GetNResult :=
  if c.hashRing.length = 0 then
    .ringEmpty
  else if c.nodes.length < n then
    .notEnough c.nodes.length n
  else if n < 0 then
    .panic
  else
    c.getNLoop n.toNat iterations (c.lookupIndex (c.hashFunc key)) []

inductive Op where
  | add (nodes : List GoString)
  | remove (node : GoString)
  | reset

def step (c : ConsistentHash) : Op → ConsistentHash
  | .add nodes => c.add nodes
  | .remove node => c.remove node
  | .reset => c.reset

def run (c : ConsistentHash) (ops : List Op) : ConsistentHash := ops.foldl step c

/-- The ring is sorted, its points are the keys of the map, and every entry of the map is
    a member at one of that member's points. -/
structure Valid (c : ConsistentHash) : Prop where
  sorted : c.hashRing.Pairwise (· ≤ ·)
  keyed : ∀ p, p ∈ c.hashRing ↔ (c.nodeMap p).isSome = true
  owned : ∀ p m, c.nodeMap p = some m → m ∈ c.nodes ∧ p ∈ c.points m
  distinct : c.nodes.Nodup

-- `Add` without the final sort keeps everything of `Valid` but the order.
structure Loose (c : ConsistentHash) : Prop where
  keyed : ∀ p, p ∈ c.hashRing ↔ (c.nodeMap p).isSome = true
  owned : ∀ p m, c.nodeMap p = some m → m ∈ c.nodes ∧ p ∈ c.points m
  distinct : c.nodes.Nodup

variable {c : ConsistentHash}

theorem Valid.loose (h : c.Valid) : c.Loose :=
  ⟨h.keyed, h.owned, h.distinct⟩

theorem addPoints_eq (node : GoString) (hashes : List Point) (c : ConsistentHash) : hashes.foldl
      (fun c hash =>
        { c with
          hashRing := c.hashRing ++ [hash]
          nodeMap := update c.nodeMap hash (some node) }) c = { c with
      hashRing := c.hashRing ++ hashes
      nodeMap := fun p => if p ∈ hashes then some node else c.nodeMap p } := by
  induction hashes generalizing c with
  | nil => simp
  | cons hash hashes ih =>
    rw [foldl_cons, ih]
    congr 1
    · simp only [append_assoc, singleton_append]
    · funext p
      by_cases later : p ∈ hashes
      · simp [later]
      · by_cases same : p = hash
        · subst same
          simp
        · simp [later, same]

theorem addNode_fresh {node : GoString} (fresh : node ∉ c.nodes) : c.addNode node = { c with
        nodes := c.nodes ++ [node]
        hashRing := c.hashRing ++ c.points node
        nodeMap := fun p => if p ∈ c.points node then some node else c.nodeMap p } := by
  rw [addNode, if_neg fresh, addPoints_eq]

theorem addNode_loose (h : c.Loose) (node : GoString) : (c.addNode node).Loose := by
  by_cases known : node ∈ c.nodes
  · rwa [addNode, if_pos known]
  · rw [addNode_fresh known]
    refine ⟨fun p => ?_, fun p m entry => ?_, ?_⟩
    · by_cases own : p ∈ c.points node
      · simp [own]
      · simp [own, h.keyed p]
    · by_cases own : p ∈ c.points node
      · simp only [if_pos own, some.injEq] at entry
        subst entry
        exact ⟨mem_append_right _ mem_cons_self, own⟩
      · simp only [if_neg own] at entry
        exact ⟨mem_append_left _ (h.owned p m entry).1, (h.owned p m entry).2⟩
    · exact h.distinct.append (nodup_singleton node) (by simpa using known)

theorem add_valid (h : c.Valid) (nodes : List GoString) : (c.add nodes).Valid := by
  have loose : (nodes.foldl addNode c).Loose := by
    have start := h.loose
    clear h
    induction nodes generalizing c with
    | nil => exact start
    | cons node nodes ih => exact ih (addNode_loose start node)
  refine ⟨pairwise_insertionSort _ _, ?_, loose.owned, loose.distinct⟩
  intro p
  exact (mem_insertionSort _).trans (loose.keyed p)

theorem deletePoints (hashes : List Point) : ∀ (m : Point → Option GoString) (p : Point),
    (hashes.foldl (fun m hash => update m hash none) m) p =
      if p ∈ hashes then none else m p := by
  induction hashes with
  | nil =>
    intro m p
    simp
  | cons hash hashes ih =>
    intro m p
    rw [foldl_cons, ih]
    by_cases later : p ∈ hashes
    · simp [later]
    · by_cases same : p = hash
      · subst same
        simp
      · simp [later, same]

theorem remove_nodeMap {node : GoString} (mem : node ∈ c.nodes) (p : Point) :
    (c.remove node).nodeMap p = if p ∈ c.points node then none else c.nodeMap p := by
  simp only [remove, if_pos mem, deletePoints]

theorem remove_hashRing (h : c.Valid) {node : GoString} (mem : node ∈ c.nodes) :
    (c.remove node).hashRing = c.hashRing.filter fun p => decide (p ∉ c.points node) := by
  simp only [remove, if_pos mem, deletePoints]
  apply filter_congr
  intro p onRing
  by_cases own : p ∈ c.points node
  · simp [own]
  · simp [own, (h.keyed p).mp onRing]

theorem remove_valid (h : c.Valid) (node : GoString) : (c.remove node).Valid := by
  by_cases mem : node ∈ c.nodes
  · have same : (c.remove node).points = c.points := by
      simp only [remove, if_pos mem]
      rfl
    refine ⟨?_, ?_, ?_, ?_⟩
    · rw [remove_hashRing h mem]
      exact h.sorted.filter _
    · intro p
      rw [remove_hashRing h mem, remove_nodeMap mem, mem_filter, h.keyed]
      by_cases own : p ∈ c.points node <;> simp [own]
    · intro p m entry
      rw [remove_nodeMap mem] at entry
      split at entry
      · cases entry
      · rename_i foreign
        obtain ⟨old, at_⟩ := h.owned p m entry
        have different : m ≠ node := fun h => foreign (h ▸ at_)
        simp only [remove, if_pos mem]
        exact ⟨(mem_erase_of_ne different).mpr old, at_⟩
    · simp only [remove, if_pos mem]
      exact h.distinct.erase node
  · simpa only [remove, if_neg mem] using h

theorem new_valid (replicas : Int) (hashFunc : GoString → Point) :
    (newConsistentHash replicas hashFunc).Valid :=
  ⟨List.Pairwise.nil, by simp [newConsistentHash], by simp [newConsistentHash], nodup_nil⟩

theorem step_valid (h : c.Valid) (op : Op) : (c.step op).Valid := by
  cases op with
  | add nodes => exact add_valid h nodes
  | remove node => exact remove_valid h node
  | reset => exact new_valid c.replicas c.hashFunc

theorem run_valid (h : c.Valid) (ops : List Op) : (c.run ops).Valid := by
  induction ops generalizing c with
  | nil => exact h
  | cons op ops ih => exact ih (step_valid h op)

/-- The node that owns the successor of a position, if the ring has points. -/
def ownerFrom (ring : List Point) (nodeMap : Point → Option GoString) (hash : Point) :
    Option GoString :=
  (successor ring hash).bind nodeMap

theorem get_iff (h : c.Valid) {key m : GoString} :
    c.get key = .ok m ↔ ownerFrom c.hashRing c.nodeMap (c.hashFunc key) = some m := by
  simp only [get, nodeAt, lookupIndex, getElem?_search h.sorted]
  by_cases empty : c.hashRing = []
  · simp [empty, ownerFrom, successor]
  · have ne : c.hashRing.length ≠ 0 := by simpa using empty
    obtain ⟨p, found⟩ := successor_isSome empty (c.hashFunc key)
    obtain ⟨owner, entry⟩ := isSome_iff_exists.mp
      ((h.keyed p).mp (successor_sound h.sorted found).1)
    simp only [if_neg ne, ownerFrom, found, bind_some, entry, getD_some,
      Except.ok.injEq, some.injEq]

end ConsistentHash

end Monitor.Hash
