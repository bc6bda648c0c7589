import Monitor.Hash.ConsistentHash

/-! # When removing a node moves only its own keys

`Remove` deletes every ring point that is a hash of one of the node's labels. A
label is the replica number followed by the name, so two nodes can have a label
in common ("10" ++ "a" is "1" ++ "0a"), and then the deleted point may belong to
somebody else. Its keys move on to the next surviving point. Removal is minimal
exactly when that point has the same owner.
-/

namespace Monitor.Hash

open GoText PointRing List

namespace ConsistentHash

/-- The ring points that are not points of `node`. -/
def survivors (c : ConsistentHash) (node : GoString) : List Point :=
  c.hashRing.filter fun p => decide (p ∉ c.points node)

/-- Every point of `node` that another member owns is followed, among the surviving points,
    by a point of that member. -/
def KeepsForeignPoints (c : ConsistentHash) (node : GoString) : Prop :=
  ∀ p ∈ c.points node, ∀ m ∈ c.nodeMap p,
    m = node ∨ ownerFrom (c.survivors node) c.nodeMap p = some m

-- The instance for lists: the one for `Fin` would go through all `2^32` points.
instance (c : ConsistentHash) (node : GoString) : Decidable (c.KeepsForeignPoints node) :=
  @List.decidableBAll _ (fun p => ∀ m ∈ c.nodeMap p,
    m = node ∨ ownerFrom (c.survivors node) c.nodeMap p = some m) inferInstance _

theorem ownerFrom_remove {c : ConsistentHash} (h : c.Valid) {node : GoString}
    (mem : node ∈ c.nodes) (hash : Point) :
    ownerFrom (c.remove node).hashRing (c.remove node).nodeMap hash =
      ownerFrom (c.survivors node) c.nodeMap hash := by
  rw [remove_hashRing h mem]
  change (successor (c.survivors node) hash).bind _ = (successor (c.survivors node) hash).bind _
  cases found : successor (c.survivors node) hash with
  | none => rfl
  | some p =>
    have sorted : (c.survivors node).Pairwise (· ≤ ·) := h.sorted.filter _
    have alive := (mem_filter.mp (successor_sound sorted found).1).2
    simp only [Option.bind_some, remove_nodeMap mem, if_neg (of_decide_eq_true alive)]

theorem successor_survivors {c : ConsistentHash} (h : c.Valid) (node : GoString) {hash p : Point}
    (found : successor c.hashRing hash = some p) :
    successor (c.survivors node) hash = successor (c.survivors node) p := by
  have sorted : (c.survivors node).Pairwise (· ≤ ·) := h.sorted.filter _
  have fewer : {q | q ∈ c.survivors node} ⊆ {q | q ∈ c.hashRing} :=
    fun q mem => (mem_filter.mp mem).1
  ext q
  rw [successor_iff sorted, successor_iff sorted]
  exact (successor_sound h.sorted found).restrict fewer q

/-- In every state reached by `Add`, `Remove` and `Reset`, removing a member leaves all
    keys of the other members where they are if and only if every point it shares with
    another member is followed by a point of that member. -/
theorem get_remove_iff (replicas : Int) (hashFunc : GoString → Point) (ops : List Op)
    (node : GoString) (member : node ∈ ((newConsistentHash replicas hashFunc).run ops).nodes) :
    (∀ key m, ((newConsistentHash replicas hashFunc).run ops).get key = .ok m → m ≠ node →
      (((newConsistentHash replicas hashFunc).run ops).remove node).get key = .ok m) ↔
    ((newConsistentHash replicas hashFunc).run ops).KeepsForeignPoints node := by
  have valid := run_valid (new_valid replicas hashFunc) ops
  have sameHash : ((newConsistentHash replicas hashFunc).run ops |>.remove node).hashFunc =
      ((newConsistentHash replicas hashFunc).run ops).hashFunc := by
    simp only [remove, if_pos member]
  generalize (newConsistentHash replicas hashFunc).run ops = c at *
  have removed := remove_valid valid node
  constructor
  · intro minimal p own m entry
    by_cases same : m = node
    · exact .inl same
    · refine .inr ?_
      -- the shared label is itself a key that hashes to the shared point
      obtain ⟨i, _, rfl⟩ := mem_map.mp own
      have onRing : c.point node i ∈ c.hashRing :=
        (valid.keyed _).mpr (Option.isSome_iff_exists.mpr ⟨m, entry⟩)
      have itself : successor c.hashRing (c.hashFunc (label i node)) = some (c.point node i) :=
        (successor_iff valid.sorted).mpr (.self onRing)
      have before : c.get (label i node) = .ok m := by
        rw [get_iff valid, ownerFrom, itself]
        exact entry
      have after := (get_iff removed).mp (minimal (label i node) m before same)
      rwa [sameHash, ownerFrom_remove valid member] at after
  · intro keeps key m before different
    rw [get_iff valid, ownerFrom, Option.bind_eq_some_iff] at before
    obtain ⟨p, found, entry⟩ := before
    rw [get_iff removed, sameHash, ownerFrom_remove valid member, ownerFrom,
      successor_survivors valid node found]
    by_cases own : p ∈ c.points node
    · exact (keeps p own m entry).resolve_left different
    · have alive : p ∈ c.survivors node :=
        mem_filter.mpr ⟨(successor_sound valid.sorted found).1, decide_eq_true own⟩
      have sorted : (c.survivors node).Pairwise (· ≤ ·) := valid.sorted.filter _
      rw [(successor_iff sorted).mpr (.self alive)]
      exact entry

/-- A hash that keeps short strings apart: their bytes as a big-endian number. -/
def bytesHash (s : GoString) : Point :=
  Fin.ofNat _ (s.foldl (fun n b => n * 256 + b.toNat) 0)

/-- Nodes without a common label: a key of the node that stays does not move. -/
theorem get_remove_iff_two_nodes :
    ((newConsistentHash 3 bytesHash).run [.add [ascii "a", ascii "b"]]).get (ascii "0b") =
        .ok (ascii "b") ∧
      (((newConsistentHash 3 bytesHash).run [.add [ascii "a", ascii "b"]]).remove
        (ascii "a")).get (ascii "0b") = .ok (ascii "b") := by
  have before : ((newConsistentHash 3 bytesHash).run [.add [ascii "a", ascii "b"]]).get
      (ascii "0b") = .ok (ascii "b") := by
    decide +kernel
  have minimal := (get_remove_iff 3 bytesHash [.add [ascii "a", ascii "b"]] (ascii "a")
    (by decide +kernel)).mpr (by decide +kernel)
  exact ⟨before, minimal (ascii "0b") (ascii "b") before (by decide)⟩

/-- With eleven replicas the label "10a" belongs to node "a" and to node "0a". No two other
    labels have one hash, yet removing "a" moves a key of "0a" to "b". -/
theorem get_remove_shared_label :
    let c := (newConsistentHash 11 bytesHash).run [.add [ascii "a", ascii "0a", ascii "b"]]
    (∀ n ∈ c.nodes, ∀ m ∈ c.nodes, ∀ i ∈ List.range 11, ∀ j ∈ List.range 11,
      bytesHash (label i n) = bytesHash (label j m) → label i n = label j m) ∧
    ascii "a" ∈ c.nodes ∧
    c.get (ascii "10a") = .ok (ascii "0a") ∧
    (c.remove (ascii "a")).get (ascii "10a") = .ok (ascii "b") := by
  decide +kernel

end ConsistentHash

end Monitor.Hash
