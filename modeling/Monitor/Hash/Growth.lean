import Monitor.Hash.ConsistentHash

/-! # Adding a node moves keys only to it

A new member brings its points to the ring, and where they collide with points
of others it takes these over. Among all points the successor of a key is either
one of the new points or the same as before, with the same owner.
-/

namespace Monitor.Hash

open GoText PointRing List

namespace ConsistentHash

variable {c : ConsistentHash} {node : GoString}

theorem mem_add_hashRing (fresh : node ∉ c.nodes) (p : Point) :
    p ∈ (c.add [node]).hashRing ↔ p ∈ c.hashRing ∨ p ∈ c.points node := by
  simp only [add, foldl_cons, foldl_nil, addNode_fresh fresh, mem_insertionSort, mem_append]

theorem add_nodeMap (fresh : node ∉ c.nodes) (p : Point) :
    (c.add [node]).nodeMap p = if p ∈ c.points node then some node else c.nodeMap p := by
  simp only [add, foldl_cons, foldl_nil, addNode_fresh fresh]

theorem add_hashFunc (fresh : node ∉ c.nodes) : (c.add [node]).hashFunc = c.hashFunc := by
  simp only [add, foldl_cons, foldl_nil, addNode_fresh fresh]

theorem get_member (valid : c.Valid) (ne : c.hashRing ≠ []) (key : GoString) :
    ∃ m ∈ c.nodes, c.get key = .ok m := by
  obtain ⟨p, found⟩ := successor_isSome ne (c.hashFunc key)
  obtain ⟨m, entry⟩ := Option.isSome_iff_exists.mp
    ((valid.keyed p).mp (successor_sound valid.sorted found).1)
  refine ⟨m, (valid.owned p m entry).1, (get_iff valid).mpr ?_⟩
  rw [ownerFrom, found]
  exact entry

theorem get_add (valid : c.Valid) (fresh : node ∉ c.nodes) (ne : c.hashRing ≠ [])
    (key : GoString) : (c.add [node]).get key = c.get key ∨ (c.add [node]).get key = .ok node := by
  have grown := add_valid valid [node]
  have points : (c.add [node]).hashRing ≠ [] := by
    obtain ⟨p, mem⟩ := exists_mem_of_ne_nil _ ne
    exact ne_nil_of_mem ((mem_add_hashRing fresh p).mpr (.inl mem))
  obtain ⟨m, _, answer⟩ := get_member grown points key
  have owner := (get_iff grown).mp answer
  rw [ownerFrom, Option.bind_eq_some_iff] at owner
  obtain ⟨p, found, entry⟩ := owner
  rw [add_nodeMap fresh] at entry
  split at entry
  · cases entry
    exact .inr answer
  · rename_i foreign
    left
    rw [answer, eq_comm, get_iff valid, ownerFrom]
    -- the successor among more points is an old point, so it is the successor among these
    have isSuccessor := successor_sound grown.sorted found
    have old : p ∈ c.hashRing :=
      ((mem_add_hashRing fresh p).mp isSuccessor.1).resolve_right foreign
    have fewer : {q | q ∈ c.hashRing} ⊆ {q | q ∈ (c.add [node]).hashRing} :=
      fun q mem => (mem_add_hashRing fresh q).mpr (.inl mem)
    have before := (isSuccessor.restrict fewer p).mpr (.self old)
    rw [add_hashFunc fresh] at before
    rw [(successor_iff valid.sorted).mpr before]
    exact entry

/-- In every state reached by `Add`, `Remove` and `Reset`, with any hash function and any number
    of replicas: the ring is sorted, its points are the keys of the map and the map leads to
    members, so that lookups on a ring with points answer with a member; and a node that is added
    then gets every key whose answer changes. -/
theorem run_membership_and_growth (replicas : Int) (hashFunc : GoString → Point) (ops : List Op) :
    let c := (newConsistentHash replicas hashFunc).run ops
    c.hashRing.Pairwise (· ≤ ·) ∧
    (∀ p, p ∈ c.hashRing ↔ (c.nodeMap p).isSome = true) ∧
    (∀ p m, c.nodeMap p = some m → m ∈ c.nodes) ∧
    (c.hashRing ≠ [] → ∀ key, ∃ m ∈ c.nodes, c.get key = .ok m) ∧
    (c.hashRing ≠ [] → ∀ n, n ∉ c.nodes → ∀ key,
      (c.add [n]).get key ≠ c.get key → (c.add [n]).get key = .ok n) := by
  intro c
  have valid : c.Valid := run_valid (new_valid replicas hashFunc) ops
  refine ⟨valid.sorted, valid.keyed, fun p m entry => (valid.owned p m entry).1,
    get_member valid, ?_⟩
  intro nonempty n fresh key changed
  exact (get_add valid fresh nonempty key).resolve_left changed

end ConsistentHash

end Monitor.Hash
