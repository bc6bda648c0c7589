import Monitor.Hash.History

/-! # `GetN` finds as many members as it is asked for

The label of a virtual node is its number followed by the name of its node, so nodes can
share labels, and a shared point goes to the node added last and disappears with either
of them. The label with number zero is never shared: no other number starts with the
digit zero. Every member keeps that point (`Anchored`), which is what the loop of `GetN`
needs to come to an end.
-/

namespace Monitor.Hash

open GoText PointRing List Option ConsistentHash

namespace ConsistentHash

/-- Different labels of virtual nodes of these nodes have different hashes. -/
def LabelsApart (c : ConsistentHash) (nodes : List GoString) : Prop :=
  ∀ n ∈ nodes, ∀ m ∈ nodes, ∀ i ∈ List.range c.replicas.toNat, ∀ j ∈ List.range c.replicas.toNat,
    c.point n i = c.point m j → label i n = label j m

/-- Every member has the point of its label with number zero. -/
structure Anchored (added : List GoString) (c : ConsistentHash) : Prop where
  anchor : ∀ m ∈ c.nodes, c.nodeMap (c.point m 0) = some m
  known : ∀ m ∈ c.nodes, m ∈ added
  replicas : 0 < c.replicas.toNat
  apart : c.LabelsApart added

theorem itoa_zero : itoa 0 = [48] := by
  rfl

variable {m : GoString} {node : GoString}

theorem label_zero {j : Nat} (same : label 0 m = label j node) : m = node := by
  simp only [label, Nat.cast_zero, itoa_zero] at same
  have decimal : itoa (j : Int) = natDigits j := by
    simp only [itoa, Int.natAbs_natCast]
    rw [if_neg (by omega)]
  obtain ⟨c, more, shape, zero⟩ := natDigits_head j
  rw [decimal, shape] at same
  have first : c = 48 := (List.cons.inj same).1.symm
  have only := zero first
  rw [shape] at only
  rw [only] at same
  exact (List.cons.inj same).2

variable {c : ConsistentHash} {added : List GoString}

theorem Anchored.own (h : Anchored added c) (listed : m ∈ added)
    (listed' : node ∈ added) (other : m ≠ node) : c.point m 0 ∉ c.points node := by
  intro shared
  obtain ⟨j, lt, same⟩ := mem_map.mp shared
  have zero := mem_range.mpr h.replicas
  exact other (label_zero (h.apart m listed node listed' 0 zero j lt same.symm))

theorem anchor_mem_points (pos : 0 < c.replicas.toNat) (m : GoString) : c.point m 0 ∈ c.points m :=
  mem_map.mpr ⟨0, mem_range.mpr pos, rfl⟩

theorem Anchored.empty (pos : 0 < c.replicas.toNat) (apart : c.LabelsApart added)
    (nodes : c.nodes = []) : Anchored added c where
  anchor m mem := by rw [nodes] at mem; cases mem
  known m mem := by rw [nodes] at mem; cases mem
  replicas := pos
  apart := apart

theorem Anchored.addNode (h : Anchored added c) (listed : node ∈ added) :
    Anchored added (c.addNode node) := by
  by_cases mem : node ∈ c.nodes
  · rw [ConsistentHash.addNode, if_pos mem]
    exact h
  · rw [addNode_fresh mem]
    refine ⟨fun m known => ?_, fun m known => ?_, h.replicas, h.apart⟩
    · change (if c.point m 0 ∈ c.points node then some node else c.nodeMap (c.point m 0)) = some m
      rcases mem_append.mp known with old | new
      · have other : m ≠ node := fun same => mem (same ▸ old)
        rw [if_neg (h.own (h.known m old) listed other)]
        exact h.anchor m old
      · obtain rfl := mem_singleton.mp new
        exact if_pos (anchor_mem_points h.replicas m)
    · rcases mem_append.mp known with old | new
      · exact h.known m old
      · rw [mem_singleton.mp new]
        exact listed

theorem Anchored.addNodes (nodes : List GoString) (h : Anchored added c)
    (listed : ∀ node ∈ nodes, node ∈ added) : Anchored added (nodes.foldl ConsistentHash.addNode c) :=
  foldlRecOn nodes _ h fun _ h node mem => h.addNode (listed node mem)

theorem Anchored.remove (h : Anchored added c) (distinct : c.nodes.Nodup) (node : GoString) :
    Anchored added (c.remove node) := by
  by_cases mem : node ∈ c.nodes
  · have nodes : (c.remove node).nodes = c.nodes.erase node := by
      simp only [ConsistentHash.remove, if_pos mem]
    have parameters : SameParameters c (c.remove node) := step_parameters c (.remove node)
    have point : (c.remove node).point = c.point := by
      funext m i
      simp only [point, parameters.hashFunc]
    refine ⟨fun m remaining => ?_, fun m remaining => ?_, ?_, ?_⟩
    · rw [nodes] at remaining
      have old := mem_of_mem_erase remaining
      have other : m ≠ node := fun same => distinct.not_mem_erase (same ▸ remaining)
      rw [point, remove_nodeMap mem, if_neg (h.own (h.known m old) (h.known node mem) other)]
      exact h.anchor m old
    · rw [nodes] at remaining
      exact h.known m (mem_of_mem_erase remaining)
    · rw [parameters.replicas]
      exact h.replicas
    · rw [LabelsApart, parameters.replicas, point]
      exact h.apart
  · rw [ConsistentHash.remove, if_neg mem]
    exact h

theorem Anchored.step (h : Anchored added c) (distinct : c.nodes.Nodup) {op : Op}
    (listed : ∀ node ∈ everAdded [op], node ∈ added) : Anchored added (c.step op) := by
  cases op with
  | add nodes =>
    have grown := h.addNodes nodes fun node mem => listed node (by simpa [everAdded] using mem)
    exact ⟨grown.anchor, grown.known, grown.replicas, grown.apart⟩
  | remove node => exact h.remove distinct node
  | reset => exact .empty h.replicas h.apart rfl

theorem Anchored.run (ops : List Op) : ∀ {c : ConsistentHash}, Anchored added c → c.Valid →
    (∀ node ∈ everAdded ops, node ∈ added) → Anchored added (c.run ops) := by
  induction ops with
  | nil => exact fun h _ _ => h
  | cons op ops ih =>
    intro c h valid listed
    refine ih (h.step valid.distinct fun node mem => listed node ?_) (step_valid valid op)
      fun node mem => listed node ?_
    · cases op with
      | add nodes => exact mem_append_left _ (by simpa [everAdded] using mem)
      | remove _ | reset => cases mem
    · cases op with
      | add nodes => exact mem_append_right _ mem
      | remove _ | reset => exact mem

theorem Anchored.exists_nodeAt (h : Anchored added c) (valid : c.Valid)
    (mem : m ∈ c.nodes) : ∃ i < c.hashRing.length, c.nodeAt i = m := by
  have entry := h.anchor m mem
  have onRing : c.point m 0 ∈ c.hashRing := (valid.keyed _).mpr (by rw [entry]; rfl)
  obtain ⟨i, lt, same⟩ := getElem_of_mem onRing
  refine ⟨i, lt, ?_⟩
  rw [nodeAt, getElem?_eq_getElem lt, same, bind_some, entry, getD_some]

theorem nodeAt_mem (valid : c.Valid) {idx : Nat} (lt : idx < c.hashRing.length) :
    c.nodeAt idx ∈ c.nodes := by
  obtain ⟨m, entry⟩ := isSome_iff_exists.mp
    ((valid.keyed c.hashRing[idx]).mp (getElem_mem lt))
  rw [nodeAt, getElem?_eq_getElem lt, bind_some, entry, getD_some]
  exact (valid.owned _ m entry).1

theorem getNLoop_returns {n : Nat} : ∀ {iterations idx : Nat} {result : List GoString},
    c.getNLoop n iterations idx result ≠ .running →
      ∃ out, c.getNLoop n iterations idx result = .ok out := by
  intro iterations
  induction iterations with
  | zero =>
    intro idx result ends
    rw [getNLoop] at ends ⊢
    split at ends
    · exact absurd rfl ends
    · rename_i full
      exact ⟨result, if_neg full⟩
  | succ iterations ih =>
    intro idx result ends
    rw [getNLoop] at ends ⊢
    split at ends
    · rename_i short
      rw [if_pos short]
      exact ih ends
    · rename_i full
      exact ⟨result, if_neg full⟩

theorem getNLoop_ok (valid : c.Valid) {n : Nat} : ∀ (iterations : Nat) {idx : Nat}
    {result out : List GoString}, idx < c.hashRing.length → result.length ≤ n → result.Nodup →
      (∀ m ∈ result, m ∈ c.nodes) → c.getNLoop n iterations idx result = .ok out →
      out.length = n ∧ out.Nodup ∧ (∀ m ∈ out, m ∈ c.nodes) ∧ result <+: out := by
  intro iterations
  induction iterations with
  | zero =>
    intro idx result out _ bounded distinct members returned
    rw [getNLoop] at returned
    split at returned
    · cases returned
    · cases returned
      exact ⟨by omega, distinct, members, prefix_rfl⟩
  | succ iterations ih =>
    intro idx result out lt bounded distinct members returned
    rw [getNLoop] at returned
    split at returned
    · have next := Nat.mod_lt (idx + 1) (Nat.zero_lt_of_lt lt)
      by_cases seen : c.nodeAt idx ∈ result
      · simp only [if_pos seen] at returned
        exact ih next bounded distinct members returned
      · simp only [if_neg seen] at returned
        obtain ⟨size, nodup, all, continued⟩ := ih next
          (by rw [length_append, length_singleton]; omega)
          (distinct.append (nodup_singleton _) (by simpa using seen))
          (fun m mem => by
            rcases mem_append.mp mem with old | new
            · exact members m old
            · rw [mem_singleton.mp new]
              exact nodeAt_mem valid lt) returned
        exact ⟨size, nodup, all, (prefix_append _ _).trans continued⟩
    · cases returned
      exact ⟨by omega, distinct, members, prefix_rfl⟩

theorem getNLoop_head (valid : c.Valid) {n iterations idx : Nat} {out : List GoString}
    (lt : idx < c.hashRing.length) (pos : 0 < n)
    (returned : c.getNLoop n iterations idx [] = .ok out) : out.head? = some (c.nodeAt idx) := by
  cases iterations with
  | zero =>
    rw [getNLoop, if_pos (by simpa using pos)] at returned
    cases returned
  | succ iterations =>
    rw [getNLoop, if_pos (by simpa using pos)] at returned
    have next := Nat.mod_lt (idx + 1) (Nat.zero_lt_of_lt lt)
    obtain ⟨_, _, _, rest, continued⟩ := getNLoop_ok valid iterations next
      (Nat.succ_le_of_lt pos) (nodup_singleton _)
      (fun m mem => by
        rw [mem_singleton.mp mem]
        exact nodeAt_mem valid lt) returned
    rw [← continued]
    rfl

/-- With at least one replica and no collision between different labels, after every sequence of
    calls `GetN` returns within one turn of the ring: as many different members as asked for, the
    first of them the one that `Get` answers with. -/
theorem getN_exact {replicas : Int} (positive : 1 ≤ replicas) (hashFunc : GoString → Point)
    (ops : List Op) (apart : (newConsistentHash replicas hashFunc).LabelsApart (everAdded ops))
    (key : GoString) {n : Int} (some_ : 1 ≤ n)
    (enough : n ≤ ((newConsistentHash replicas hashFunc).run ops).nodes.length) :
    ∃ first others,
      ((newConsistentHash replicas hashFunc).run ops).getN
          ((newConsistentHash replicas hashFunc).run ops).hashRing.length key n =
        .ok (first :: others) ∧
      ((first :: others).length : Int) = n ∧ (first :: others).Nodup ∧
      (∀ m ∈ first :: others, m ∈ ((newConsistentHash replicas hashFunc).run ops).nodes) ∧
      ((newConsistentHash replicas hashFunc).run ops).get key = .ok first := by
  have start := new_valid replicas hashFunc
  have valid := run_valid start ops
  have anchored := Anchored.run ops
    (.empty (c := newConsistentHash replicas hashFunc) (by
      change 0 < replicas.toNat
      omega) apart rfl) start fun _ member => member
  generalize (newConsistentHash replicas hashFunc).run ops = c at valid anchored enough
  have nonempty : c.hashRing.length ≠ 0 := by
    obtain ⟨m, member⟩ := exists_mem_of_length_pos (show 0 < c.nodes.length by omega)
    obtain ⟨i, inside, _⟩ := anchored.exists_nodeAt valid member
    omega
  have ends := getN_ends valid (fun _ _ => anchored.exists_nodeAt valid) le_rfl key n
  have inside := lookupIndex_lt valid nonempty (c.hashFunc key)
  have loop : c.getN c.hashRing.length key n =
      c.getNLoop n.toNat c.hashRing.length (c.lookupIndex (c.hashFunc key)) [] := by
    rw [getN, if_neg nonempty, if_neg (by omega), if_neg (by omega)]
  have get : c.get key = .ok (c.nodeAt (c.lookupIndex (c.hashFunc key))) := by
    rw [ConsistentHash.get, if_neg nonempty]
  rw [loop] at ends ⊢
  obtain ⟨out, returned⟩ := getNLoop_returns ends
  obtain ⟨size, nodup, members, _⟩ := getNLoop_ok valid _ inside (Nat.zero_le _) nodup_nil
    (fun m member => by cases member) returned
  have head := getNLoop_head valid inside (by omega) returned
  cases out with
  | nil => cases head
  | cons first others =>
    cases head
    exact ⟨_, others, returned, by omega, nodup, members, get⟩

instance (c : ConsistentHash) (nodes : List GoString) : Decidable (c.LabelsApart nodes) :=
  inferInstanceAs (Decidable (∀ n ∈ nodes, ∀ m ∈ nodes, ∀ i ∈ List.range c.replicas.toNat,
    ∀ j ∈ List.range c.replicas.toNat, c.point n i = c.point m j → label i n = label j m))

/-- Node "0a" after the node "a", with which it shares the label "10a", was removed. -/
def sharedLabel : List Op := [.add [ascii "a", ascii "0a", ascii "b"], .remove (ascii "a")]

theorem getN_exact_shared_label :
    ∃ first others,
      ((newConsistentHash 11 bytesHash).run sharedLabel).getN
          ((newConsistentHash 11 bytesHash).run sharedLabel).hashRing.length (ascii "10a") 2 =
        .ok (first :: others) ∧
      ((first :: others).length : Int) = 2 ∧ (first :: others).Nodup ∧
      (∀ m ∈ first :: others, m ∈ ((newConsistentHash 11 bytesHash).run sharedLabel).nodes) ∧
      ((newConsistentHash 11 bytesHash).run sharedLabel).get (ascii "10a") = .ok first :=
  getN_exact (by decide) bytesHash sharedLabel (by decide +kernel) (ascii "10a") (by decide)
    (by decide +kernel)

end ConsistentHash

end Monitor.Hash
