import Monitor.Hash.Growth
import Monitor.Hash.Removal

/-! # Routing does not depend on the history

While no two nodes that were ever added share a point, the ring is the sorted
list of all points of the members and the map leads from a point to the member
it belongs to. Both are functions of the member set (`Canonical`), and lookups
see nothing else.
-/

namespace Monitor.Hash

open GoText PointRing List

namespace ConsistentHash

/-- The nodes that a sequence of calls adds at some time. -/
def everAdded : List Op → List GoString
  | [] => []
  | .add nodes :: ops => nodes ++ everAdded ops
  | _ :: ops => everAdded ops

def Separate (c : ConsistentHash) (nodes : List GoString) : Prop :=
  ∀ n ∈ nodes, ∀ m ∈ nodes, n ≠ m → ∀ p ∈ c.points n, p ∉ c.points m

-- The instance for lists, as for `KeepsForeignPoints`.
instance (c : ConsistentHash) (nodes : List GoString) : Decidable (c.Separate nodes) :=
  have (n m : GoString) : Decidable (∀ p ∈ c.points n, p ∉ c.points m) :=
    @List.decidableBAll _ (fun p => p ∉ c.points m)
      (fun _ => decidable_of_iff _ (not_congr contains_iff_mem)) _
  inferInstanceAs (Decidable (∀ n ∈ nodes, ∀ m ∈ nodes, n ≠ m → ∀ p ∈ c.points n, p ∉ c.points m))

/-- Up to the order of the ring, the state is what its members determine. -/
structure Determined (added : List GoString) (c : ConsistentHash) : Prop where
  ring : c.hashRing.Perm (c.nodes.flatMap c.points)
  entry : ∀ m ∈ c.nodes, ∀ p ∈ c.points m, c.nodeMap p = some m
  owned : ∀ p m, c.nodeMap p = some m → m ∈ c.nodes ∧ p ∈ c.points m
  distinct : c.nodes.Nodup
  known : ∀ m ∈ c.nodes, m ∈ added
  separate : c.Separate added

/-- The parameters of a ring are never changed. -/
structure SameParameters (c c' : ConsistentHash) : Prop where
  hashFunc : c'.hashFunc = c.hashFunc
  replicas : c'.replicas = c.replicas

variable {c' : ConsistentHash}

theorem SameParameters.trans {c c'' : ConsistentHash} (h : SameParameters c c')
    (h' : SameParameters c' c'') : SameParameters c c'' :=
  ⟨h'.hashFunc.trans h.hashFunc, h'.replicas.trans h.replicas⟩

theorem SameParameters.points {c : ConsistentHash} (h : SameParameters c c') : c'.points = c.points := by
  funext node
  have point : c'.point node = c.point node := by
    funext i
    simp only [ConsistentHash.point, h.hashFunc]
  simp only [ConsistentHash.points, point, h.replicas]

theorem addNode_parameters (c : ConsistentHash) (node : GoString) :
    SameParameters c (c.addNode node) := by
  by_cases mem : node ∈ c.nodes
  · rw [addNode, if_pos mem]
    exact ⟨rfl, rfl⟩
  · rw [addNode_fresh mem]
    exact ⟨rfl, rfl⟩

theorem foldl_addNode_parameters (nodes : List GoString) (c : ConsistentHash) :
    SameParameters c (nodes.foldl addNode c) := by
  induction nodes generalizing c with
  | nil => exact ⟨rfl, rfl⟩
  | cons node nodes ih => exact (addNode_parameters c node).trans (ih _)

theorem step_parameters (c : ConsistentHash) (op : Op) : SameParameters c (c.step op) := by
  cases op with
  | add nodes =>
    have h := foldl_addNode_parameters nodes c
    exact ⟨h.hashFunc, h.replicas⟩
  | remove node =>
    simp only [step, remove]
    split <;> exact ⟨rfl, rfl⟩
  | reset => exact ⟨rfl, rfl⟩

theorem run_parameters (ops : List Op) (c : ConsistentHash) : SameParameters c (c.run ops) := by
  induction ops generalizing c with
  | nil => exact ⟨rfl, rfl⟩
  | cons op ops ih => exact (step_parameters c op).trans (ih _)

variable {c : ConsistentHash} {added : List GoString}

theorem Determined.empty (separate : c.Separate added) (ring : c.hashRing = [])
    (nodeMap : c.nodeMap = fun _ => none) (nodes : c.nodes = []) : Determined added c where
  ring := by rw [ring, nodes]; exact .refl _
  entry m mem := by rw [nodes] at mem; cases mem
  owned p m entry := by rw [nodeMap] at entry; cases entry
  distinct := by rw [nodes]; exact nodup_nil
  known m mem := by rw [nodes] at mem; cases mem
  separate := separate

theorem Determined.addNode (h : Determined added c) {node : GoString} (listed : node ∈ added) :
    Determined added (c.addNode node) := by
  by_cases mem : node ∈ c.nodes
  · rw [ConsistentHash.addNode, if_pos mem]
    exact h
  · rw [addNode_fresh mem]
    refine ⟨?_, ?_, ?_, ?_, ?_, h.separate⟩
    · rw [flatMap_append, flatMap_singleton]
      exact h.ring.append_right _
    · intro m known p own
      change (if p ∈ c.points node then some node else c.nodeMap p) = some m
      rcases mem_append.mp known with old | new
      · have other : m ≠ node := fun same => mem (same ▸ old)
        rw [if_neg (h.separate m (h.known m old) node listed other p own)]
        exact h.entry m old p own
      · obtain rfl := mem_singleton.mp new
        exact if_pos own
    · intro p m entry
      change (if p ∈ c.points node then some node else c.nodeMap p) = some m at entry
      split at entry
      · rename_i own
        cases entry
        exact ⟨mem_append_right _ mem_cons_self, own⟩
      · exact ⟨mem_append_left _ (h.owned p m entry).1, (h.owned p m entry).2⟩
    · exact h.distinct.append (nodup_singleton node) (by simpa using mem)
    · intro m known
      rcases mem_append.mp known with old | new
      · exact h.known m old
      · rw [mem_singleton.mp new]
        exact listed

theorem Determined.addNodes (nodes : List GoString) (h : Determined added c)
    (listed : ∀ node ∈ nodes, node ∈ added) : Determined added (nodes.foldl ConsistentHash.addNode c) :=
  foldlRecOn nodes _ h fun _ h node mem => h.addNode (listed node mem)

theorem Determined.add (h : Determined added c) {nodes : List GoString}
    (listed : ∀ node ∈ nodes, node ∈ added) : Determined added (c.add nodes) := by
  have grown := h.addNodes nodes listed
  exact ⟨(perm_insertionSort _ _).trans grown.ring, grown.entry, grown.owned, grown.distinct,
    grown.known, grown.separate⟩

theorem Determined.filter_points (h : Determined added c) {node : GoString} (mem : node ∈ c.nodes) :
    (c.hashRing.filter fun p => decide (p ∉ c.points node)).Perm
      ((c.nodes.erase node).flatMap c.points) := by
  have own : (c.points node).filter (fun p => decide (p ∉ c.points node)) = [] := by
    simp
  have others : ((c.nodes.erase node).flatMap c.points).filter
      (fun p => decide (p ∉ c.points node)) = (c.nodes.erase node).flatMap c.points := by
    refine filter_eq_self.mpr fun p inside => ?_
    obtain ⟨m, remaining, at_⟩ := mem_flatMap.mp inside
    have old := mem_of_mem_erase remaining
    have other : m ≠ node := fun same => h.distinct.not_mem_erase (same ▸ remaining)
    exact decide_eq_true (h.separate m (h.known m old) node (h.known node mem) other p at_)
  have split := (h.ring.trans ((perm_cons_erase mem).flatMap_right c.points)).filter
    (fun p => decide (p ∉ c.points node))
  rwa [flatMap_cons, filter_append, own, others, nil_append] at split

theorem Determined.remove (h : Determined added c) (valid : c.Valid) (node : GoString) :
    Determined added (c.remove node) := by
  by_cases mem : node ∈ c.nodes
  · have parameters : SameParameters c (c.remove node) := step_parameters c (.remove node)
    have nodes : (c.remove node).nodes = c.nodes.erase node := by
      simp only [ConsistentHash.remove, if_pos mem]
    refine ⟨?_, ?_, ?_, ?_, ?_, ?_⟩
    · rw [remove_hashRing valid mem, nodes, parameters.points]
      exact h.filter_points mem
    · intro m remaining p own
      rw [nodes] at remaining
      rw [parameters.points] at own
      have old := mem_of_mem_erase remaining
      have other : m ≠ node := fun same => h.distinct.not_mem_erase (same ▸ remaining)
      rw [remove_nodeMap mem, if_neg (h.separate m (h.known m old) node (h.known node mem) other p own)]
      exact h.entry m old p own
    · exact (remove_valid valid node).owned
    · exact (remove_valid valid node).distinct
    · intro m remaining
      rw [nodes] at remaining
      exact h.known m (mem_of_mem_erase remaining)
    · rw [Separate, parameters.points]
      exact h.separate
  · rw [ConsistentHash.remove, if_neg mem]
    exact h

theorem Determined.run (ops : List Op) : ∀ {c : ConsistentHash}, Determined added c → c.Valid →
    (∀ node ∈ everAdded ops, node ∈ added) → Determined added (c.run ops) := by
  induction ops with
  | nil => exact fun h _ _ => h
  | cons op ops ih =>
    intro c h valid listed
    have after : Determined added (c.step op) := by
      cases op with
      | add nodes => exact h.add fun node mem => listed node (mem_append_left _ mem)
      | remove node => exact h.remove valid node
      | reset => exact .empty h.separate rfl rfl rfl
    refine ih after (step_valid valid op) fun node mem => listed node ?_
    cases op with
    | add nodes => exact mem_append_right _ mem
    | remove _ | reset => exact mem

theorem Determined.unique {added' : List GoString} (h : Determined added c)
    (h' : Determined added' c') (valid : c.Valid) (valid' : c'.Valid) (parameters : SameParameters c c')
    (members : ∀ n, n ∈ c.nodes ↔ n ∈ c'.nodes) :
    c.hashRing = c'.hashRing ∧ c.nodeMap = c'.nodeMap ∧ c.nodes.length = c'.nodes.length := by
  have nodes : c.nodes.Perm c'.nodes := (perm_ext_iff_of_nodup h.distinct h'.distinct).mpr members
  have points := parameters.points
  refine ⟨?_, ?_, nodes.length_eq⟩
  · have ring : c.hashRing.Perm c'.hashRing := by
      refine h.ring.trans (.trans ?_ h'.ring.symm)
      rw [points]
      exact nodes.flatMap_right _
    exact ring.eq_of_pairwise (fun _ _ _ _ => le_antisymm) valid.sorted valid'.sorted
  · funext p
    ext m
    constructor
    · intro entry
      obtain ⟨mem, own⟩ := h.owned p m entry
      exact h'.entry m ((members m).mp mem) p (points ▸ own)
    · intro entry
      obtain ⟨mem, own⟩ := h'.owned p m entry
      exact h.entry m ((members m).mpr mem) p (points ▸ own)

theorem getNLoop_running {n : Nat} : ∀ (iterations : Nat) {idx : Nat} {result : List GoString},
    idx < c.hashRing.length → c.getNLoop n iterations idx result = .running →
      ∃ visited : List GoString, result ⊆ visited ∧ visited.length < n ∧
        ∀ j < iterations, c.nodeAt ((idx + j) % c.hashRing.length) ∈ visited := by
  intro iterations
  induction iterations with
  | zero =>
    intro idx result inside running
    rw [getNLoop] at running
    split at running
    · rename_i short
      exact ⟨result, List.Subset.refl _, short, fun j below => absurd below (Nat.not_lt_zero j)⟩
    · cases running
  | succ iterations ih =>
    intro idx result inside running
    rw [getNLoop] at running
    split at running
    · obtain ⟨visited, subset, short, seen⟩ :=
        ih (Nat.mod_lt _ (Nat.zero_lt_of_lt inside)) running
      have here : c.nodeAt idx ∈ visited := by
        apply subset
        split
        · assumption
        · exact mem_append_right _ mem_cons_self
      have kept : result ⊆ visited := by
        refine List.Subset.trans ?_ subset
        split
        · exact List.Subset.refl _
        · exact subset_append_left _ _
      refine ⟨visited, kept, short, fun j below => ?_⟩
      cases j with
      | zero => rwa [Nat.add_zero, Nat.mod_eq_of_lt inside]
      | succ j =>
        have later := seen j (Nat.lt_of_succ_lt_succ below)
        rwa [Nat.mod_add_mod, Nat.add_assoc, Nat.add_comm 1 j] at later
    · cases running

theorem getNLoop_congr (ring : c.hashRing = c'.hashRing)
    (nodeMap : c.nodeMap = c'.nodeMap) {n : Nat} (iterations idx : Nat) (result : List GoString) :
    c.getNLoop n iterations idx result = c'.getNLoop n iterations idx result := by
  have nodeAt : c.nodeAt = c'.nodeAt := by
    funext i
    simp only [ConsistentHash.nodeAt, ring, nodeMap]
  induction iterations generalizing idx result with
  | zero => simp only [getNLoop]
  | succ iterations ih => simp only [getNLoop, ring, nodeAt, ih]

theorem Determined.exists_nodeAt (h : Determined added c) (ne : c.hashRing ≠ []) {m : GoString}
    (mem : m ∈ c.nodes) : ∃ i < c.hashRing.length, c.nodeAt i = m := by
  have replicas : 0 < c.replicas.toNat := by
    obtain ⟨p, onRing⟩ := exists_mem_of_ne_nil _ ne
    obtain ⟨n, _, own⟩ := mem_flatMap.mp (h.ring.mem_iff.mp onRing)
    obtain ⟨i, inside, _⟩ := mem_map.mp own
    exact Nat.zero_lt_of_lt (mem_range.mp inside)
  have own : c.point m 0 ∈ c.points m := mem_map.mpr ⟨0, mem_range.mpr replicas, rfl⟩
  have onRing : c.point m 0 ∈ c.hashRing := h.ring.mem_iff.mpr (mem_flatMap.mpr ⟨m, mem, own⟩)
  obtain ⟨i, inside, same⟩ := getElem_of_mem onRing
  refine ⟨i, inside, ?_⟩
  rw [nodeAt, getElem?_eq_getElem inside, same, Option.bind_some, h.entry m mem _ own, Option.getD_some]

theorem lookupIndex_lt (valid : c.Valid) (ne : c.hashRing.length ≠ 0) (hash : Point) :
    c.lookupIndex hash < c.hashRing.length := by
  simp only [lookupIndex, search_findIdx valid.sorted]
  split
  · exact Nat.pos_of_ne_zero ne
  · rename_i inside
    exact Nat.lt_of_le_of_ne findIdx_le_length inside

theorem exists_add_mod {start i length : Nat} (start_lt : start < length) (i_lt : i < length) :
    ∃ j < length, (start + j) % length = i := by
  rcases Nat.le_total start i with ahead | behind
  · exact ⟨i - start, by omega, by rw [Nat.add_sub_cancel' ahead, Nat.mod_eq_of_lt i_lt]⟩
  · rcases Nat.eq_or_lt_of_le behind with rfl | lt
    · exact ⟨0, by omega, Nat.mod_eq_of_lt i_lt⟩
    · refine ⟨i + length - start, by omega, ?_⟩
      rw [Nat.add_sub_cancel' (by omega), Nat.add_mod_right, Nat.mod_eq_of_lt i_lt]

theorem getN_ends (valid : c.Valid)
    (present : c.hashRing ≠ [] → ∀ m ∈ c.nodes, ∃ i < c.hashRing.length, c.nodeAt i = m)
    {iterations : Nat} (enough : c.hashRing.length ≤ iterations) (key : GoString) (n : Int) :
    c.getN iterations key n ≠ .running := by
  rw [getN]
  split
  · exact GetNResult.noConfusion
  · rename_i ne
    split
    · exact GetNResult.noConfusion
    · split
      · exact GetNResult.noConfusion
      · intro running
        have start := lookupIndex_lt valid ne (c.hashFunc key)
        obtain ⟨visited, _, short, seen⟩ := getNLoop_running iterations start running
        have all : c.nodes ⊆ visited := by
          intro m mem
          obtain ⟨i, inside, rfl⟩ := present (by simpa using ne) m mem
          obtain ⟨j, below, reached⟩ := exists_add_mod start inside
          rw [← reached]
          exact seen j (Nat.lt_of_lt_of_le below enough)
        have := (valid.distinct.subperm all).length_le
        omega

/-- Two sequences of calls that end with the same members route every key alike, if in neither
    of them two nodes ever added share a point: `Get` gives one answer, and `GetN` ends, with the
    same nodes in the same order. -/
theorem routing_history_independent (replicas : Int) (hashFunc : GoString → Point)
    (ops ops' : List Op) (separate : (newConsistentHash replicas hashFunc).Separate (everAdded ops))
    (separate' : (newConsistentHash replicas hashFunc).Separate (everAdded ops'))
    (members : ∀ n, n ∈ ((newConsistentHash replicas hashFunc).run ops).nodes ↔
      n ∈ ((newConsistentHash replicas hashFunc).run ops').nodes) (key : GoString) :
    ((newConsistentHash replicas hashFunc).run ops).get key =
        ((newConsistentHash replicas hashFunc).run ops').get key ∧
      ∀ (n : Int) (iterations : Nat),
        ((newConsistentHash replicas hashFunc).run ops).hashRing.length ≤ iterations →
        ((newConsistentHash replicas hashFunc).run ops).getN iterations key n ≠ .running ∧
        ((newConsistentHash replicas hashFunc).run ops).getN iterations key n =
          ((newConsistentHash replicas hashFunc).run ops').getN iterations key n := by
  have start := new_valid replicas hashFunc
  have valid := run_valid start ops
  have valid' := run_valid start ops'
  have determined := Determined.run ops (.empty separate rfl rfl rfl) start fun _ member => member
  have determined' := Determined.run ops' (.empty separate' rfl rfl rfl) start fun _ member => member
  have parameters := run_parameters ops (newConsistentHash replicas hashFunc)
  have parameters' := run_parameters ops' (newConsistentHash replicas hashFunc)
  have same : SameParameters ((newConsistentHash replicas hashFunc).run ops)
      ((newConsistentHash replicas hashFunc).run ops') :=
    ⟨parameters'.hashFunc.trans parameters.hashFunc.symm,
      parameters'.replicas.trans parameters.replicas.symm⟩
  obtain ⟨ring, nodeMap, count⟩ := determined.unique determined' valid valid' same members
  have lookup (hash : Point) : ((newConsistentHash replicas hashFunc).run ops).lookupIndex hash =
      ((newConsistentHash replicas hashFunc).run ops').lookupIndex hash := by
    simp only [lookupIndex, ring]
  constructor
  · simp only [get, nodeAt, lookup, same.hashFunc, ring, nodeMap]
  · intro n iterations enough
    refine ⟨getN_ends valid (fun nonempty _ => determined.exists_nodeAt nonempty) enough key n, ?_⟩
    simp only [getN, getNLoop_congr ring nodeMap, lookup, same.hashFunc, ring, count]

/-- Three nodes at once of which one is removed, and two nodes in the other order, one of them
    twice. -/
theorem routing_history_independent_two :
    let c := (newConsistentHash 2 bytesHash).run
      [.add [ascii "a", ascii "b", ascii "c"], .remove (ascii "c")]
    let c' := (newConsistentHash 2 bytesHash).run [.add [ascii "b"], .add [ascii "a"], .add [ascii "b"]]
    c.get (ascii "0b") = c'.get (ascii "0b") ∧
      c.getN 4 (ascii "0b") 2 = c'.getN 4 (ascii "0b") 2 ∧
      c'.getN 4 (ascii "0b") 2 = .ok [ascii "b", ascii "a"] := by
  intro c c'
  have nodes : c.nodes = [ascii "a", ascii "b"] := by decide +kernel
  have nodes' : c'.nodes = [ascii "b", ascii "a"] := by decide +kernel
  obtain ⟨get, getN⟩ := routing_history_independent 2 bytesHash
    [.add [ascii "a", ascii "b", ascii "c"], .remove (ascii "c")]
    [.add [ascii "b"], .add [ascii "a"], .add [ascii "b"]] (by decide +kernel) (by decide +kernel)
    (fun n => by
      rw [nodes, nodes', mem_pair, mem_pair, or_comm]) (ascii "0b")
  exact ⟨get, (getN 2 4 (by decide +kernel)).2, by decide +kernel⟩

end ConsistentHash

end Monitor.Hash
