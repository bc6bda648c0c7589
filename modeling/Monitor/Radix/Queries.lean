import Monitor.Lib.FiniteMap
import Monitor.Radix.Updates

/-! # Queries and updates of a well-formed tree

Well-formedness is local: labels that are not empty and begin with different bytes, and no
childless node that is not a leaf. It says the same as the good shape that updates keep
(`good_iff_wellFormed`). A prefix search goes down along the only edges that agree with the
prefix, and everything that it could still find is below the node where it stops.
-/

namespace Monitor.Radix

open GoText FiniteMap List Function GoMap

variable {V : Type}

/-- Labels are not empty, siblings begin with different bytes, and childless children are leaves. -/
inductive WellFormed : Node V → Prop where
  | mk {own : GoString} {value : Option V} {isLeaf : Bool} {children : List (GoString × Node V)} :
      Edges children → (∀ e ∈ children, WellFormed e.2) →
      (∀ e ∈ children, e.2.children = [] → e.2.isLeaf = true) → WellFormed (.mk own value isLeaf children)

theorem Node.byChildren {P : Node V → Prop}
    (step : ∀ own value isLeaf children, (∀ e ∈ children, P e.2) → P (.mk own value isLeaf children))
    (t : Node V) : P t := by
  cases t with
  | mk own value isLeaf children =>
    refine step own value isLeaf children fun e mem => ?_
    have smaller := sizeOf_lt_of_mem mem
    obtain ⟨label, child⟩ := e
    have pair := Prod.mk.sizeOf_spec label child
    exact Node.byChildren step child
termination_by sizeOf t
decreasing_by
  simp only [Node.mk.sizeOf_spec]
  omega

variable {t : Node V}

theorem leaf_of_alive (alive : Alive t) (childless : t.children = []) : t.isLeaf = true := by
  obtain ⟨own, value, isLeaf, children⟩ := t
  obtain ⟨k, v, holds⟩ := alive
  cases holds with
  | leaf => rfl
  | child mem _ =>
    rw [show children = [] from childless] at mem
    cases mem

theorem good_iff_wellFormed (t : Node V) : Good t ↔ WellFormed t := by
  induction t using Node.byChildren with
  | step own value isLeaf children ih =>
    constructor
    · intro good
      cases good with
      | mk edges goods alives =>
        exact .mk edges (fun e mem => (ih e mem).mp (goods e mem))
          fun e mem childless => leaf_of_alive (alives e mem) childless
    · intro wellFormed
      cases wellFormed with
      | mk edges below leaves =>
        have goods : ∀ e ∈ children, Good e.2 := fun e mem => (ih e mem).mpr (below e mem)
        refine .mk edges goods fun e mem => (goods e mem).alive ?_
        refine or_iff_not_imp_left.mpr fun childless => leaves e mem ?_
        exact length_eq_zero_iff.mp (not_not.mp childless)

theorem Good.holds_unique (good : Good t) {k : GoString} {v v' : Option V}
    (holds : Holds t k v) (holds' : Holds t k v') : v = v' := by
  have order : Order := ⟨fun _ ls => ls, fun _ ls => .refl ls⟩
  have found := searchNode_of_holds good holds order 0
  rw [searchNode_of_holds good holds' order 0] at found
  exact (congrArg Prod.fst found).symm

variable {children : List (GoString × Node V)} {label : GoString} {child : Node V}

section Collecting

variable (tour : Tour) (start : GoString)

/-- The pairs below a path that begin with the prefix. -/
def Below (start path : GoString) (t : Node V) (k : GoString) (v : Option V) : Prop :=
  ∃ rest, k = path ++ rest ∧ start <+: k ∧ Holds t rest v

theorem Good.below_unique (good : Good t) {path k : GoString} {v v' : Option V}
    (pair : Below start path t k v) (pair' : Below start path t k v') : v = v' := by
  obtain ⟨rest, rfl, _, holds⟩ := pair
  obtain ⟨rest', same, _, holds'⟩ := pair'
  obtain rfl := append_cancel_left same
  exact good.holds_unique holds holds'

theorem collectBelow_eq (edges : Edges children) (path : GoString) (mem : (label, child) ∈ children)
    (result : Matches V) :
    collectBelow tour start path label children result =
      collectPrefixMatches tour start (path ++ label) child result := by
  induction children with
  | nil => cases mem
  | cons first children ih =>
    rw [collectBelow]
    rcases mem_cons.mp mem with same | later
    · cases same
      rw [if_pos rfl]
    · rw [if_neg (edges.label_ne later).symm, ih edges.tail later]

theorem collectBelow_missing (path : GoString)
    (missing : label ∉ keysOf children) (result : Matches V) :
    collectBelow tour start path label children result = result := by
  induction children with
  | nil => rfl
  | cons first children ih =>
    obtain ⟨l, c⟩ := first
    have other : l ≠ label := fun same => missing (same ▸ mem_cons_self)
    rw [collectBelow, if_neg other, ih fun later => missing (mem_cons_of_mem l later)]

theorem gathers_leaf (path : GoString) (value : Option V) (isLeaf : Bool) (result : Matches V) :
    Gathers (fun k v => k = path ∧ start <+: k ∧ isLeaf = true ∧ v = value) result
      (if isLeaf ∧ start.isPrefixOf path then update result path (some value) else result) := by
  split
  · rename_i stored
    refine ⟨?_, fun k other => ?_⟩
    · rintro k v ⟨rfl, _, _, rfl⟩
      exact update_self ..
    · refine update_of_ne ?_ ..
      rintro rfl
      exact other value ⟨rfl, List.isPrefixOf_iff_prefix.mp stored.2, stored.1, rfl⟩
  · rename_i missing
    refine ⟨?_, fun _ _ => rfl⟩
    rintro k v ⟨rfl, begins, leaf, rfl⟩
    exact absurd ⟨leaf, List.isPrefixOf_iff_prefix.mpr begins⟩ missing

/-- The pairs behind a label. -/
def Behind (start path : GoString) (children : List (GoString × Node V)) (label k : GoString)
    (v : Option V) : Prop :=
  ∃ child, (label, child) ∈ children ∧ Below start (path ++ label) child k v

theorem Behind.below {path label k own : GoString} {v value : Option V} {isLeaf : Bool}
    (pair : Behind start path children label k v) :
    Below start path (.mk own value isLeaf children) k v := by
  obtain ⟨child, mem, rest, rfl, begins, holds⟩ := pair
  exact ⟨label ++ rest, append_assoc .., begins, .child mem holds⟩

theorem collectBelow_gathers (edges : Edges children)
    (path label : GoString)
    (each : ∀ child, (label, child) ∈ children → ∀ result, Gathers (Below start (path ++ label) child)
      result (collectPrefixMatches tour start (path ++ label) child result)) (result : Matches V) :
    Gathers (Behind start path children label) result
      (collectBelow tour start path label children result) := by
  by_cases listed : label ∈ keysOf children
  · obtain ⟨child, mem⟩ := mem_keysOf_iff.mp listed
    have gathered := each child mem result
    rw [collectBelow_eq tour start edges path mem]
    refine ⟨?_, fun k absent => gathered.kept k fun v pair => absent v ⟨child, mem, pair⟩⟩
    rintro k v ⟨child', mem', pair⟩
    obtain ⟨_, rfl⟩ := Prod.mk.inj (edges.unique mem' mem rfl)
    exact gathered.added k v pair
  · rw [collectBelow_missing tour start path listed]
    refine ⟨?_, fun _ _ => rfl⟩
    rintro k v ⟨child, mem, _⟩
    exact absurd (mem_keysOf mem) listed

theorem collectPrefixMatches_gathers (good : Good t) (path : GoString) (result : Matches V) :
    Gathers (Below start path t) result (collectPrefixMatches tour start path t result) := by
  induction t using Node.byChildren generalizing path result with
  | step own value isLeaf children ih =>
    have whole := good
    cases good with
    | mk edges goods alives =>
      rw [collectPrefixMatches]
      have leaf := gathers_leaf start path value isLeaf result
      generalize (if isLeaf ∧ start.isPrefixOf path then update result path (some value)
        else result) = first at leaf ⊢
      have turns := Gathers.foldl (fun result label => collectBelow_gathers tour start edges path label
        (fun child mem => ih (label, child) mem (goods _ mem) (path ++ label)) result)
        (fun _ _ _ _ _ pair pair' => whole.below_unique start (pair.below start) (pair'.below start))
        (tour.labels path (keysOf children)) first
      refine ⟨?_, fun k absent => ?_⟩
      · rintro k v ⟨rest, rfl, begins, holds⟩
        rcases holds_mk_iff.mp holds with ⟨rfl, here, rfl⟩ | ⟨e, mem, more, rfl, deeper⟩
        · rw [append_nil] at begins ⊢
          rw [turns.kept path, leaf.added path v ⟨rfl, begins, here, rfl⟩]
          rintro v' ⟨label, _, child, mem, more, same, _⟩
          -- The turns write longer keys only.
          rw [append_assoc] at same
          have none_ := self_eq_append_right.mp same
          exact edges.nonempty _ mem (append_eq_nil_iff.mp none_).1
        · refine turns.added _ v ⟨e.1, ?_, e.2, mem, more, (append_assoc ..).symm, begins, deeper⟩
          exact (tour.perm _ _).mem_iff.mpr (mem_keysOf mem)
      · rw [turns.kept k, leaf.kept k]
        · rintro v ⟨rfl, begins, here, rfl⟩
          refine absent v ⟨[], (append_nil k).symm, begins, ?_⟩
          rw [here]
          exact .leaf
        · rintro v ⟨label, _, pair⟩
          exact absent v (pair.below start)

end Collecting

section Descent

variable (order : Order) (start : GoString)

theorem descendBelow_eq (edges : Edges children) (depth : Nat)
    (path : GoString) (mem : (label, child) ∈ children) :
    descendBelow order start depth path label children =
      if path ++ label = start then (child, path ++ label)
      else descendNode order start (depth + 1) (path ++ label) child := by
  induction children with
  | nil => cases mem
  | cons first children ih =>
    rw [descendBelow]
    rcases mem_cons.mp mem with same | later
    · cases same
      rw [if_pos rfl]
    · rw [if_neg (edges.label_ne later).symm, ih edges.tail later]

/-- The descent stops at a node on the way to the prefix, and loses no pair that begins with it. -/
structure Reaches (path : GoString) (t : Node V) (stop : Node V × GoString) : Prop where
  good : Good stop.1
  onWay : stop.2 <+: start
  pairs : ∀ k v, Below start path t k v ↔ Below start stop.2 stop.1 k v

theorem below_edge (own : GoString) (value : Option V) (isLeaf : Bool)
    (edges : Edges children) {path label : GoString} (mem : (label, child) ∈ children)
    (agrees : path ++ label <+: start) (k : GoString) (v : Option V) :
    Below start path (.mk own value isLeaf children) k v ↔ Below start (path ++ label) child k v := by
  constructor
  · rintro ⟨rest, rfl, begins, holds⟩
    obtain ⟨more, whole⟩ := agrees.trans begins
    rw [append_assoc] at whole
    obtain rfl := append_cancel_left whole
    refine ⟨more, (append_assoc ..).symm, begins, ?_⟩
    rcases holds_mk_iff.mp holds with ⟨empty, _⟩ | ⟨e, edge, r, same, deeper⟩
    · exact absurd (append_eq_nil_iff.mp empty).1 (edges.nonempty _ mem)
    · obtain ⟨rfl, rfl⟩ := edges.same_edge mem edge same
      exact deeper
  · rintro ⟨rest, rfl, begins, holds⟩
    exact ⟨label ++ rest, append_assoc .., begins, .child mem holds⟩

theorem descendNode_reaches (good : Good t) (depth : Nat) {path : GoString}
    (onWay : path <+: start) : Reaches start path t (descendNode order start depth path t) := by
  induction t using Node.byChildren generalizing depth path with
  | step own value isLeaf children ih =>
    have whole := good
    cases good with
    | mk edges goods alives =>
      rw [descendNode]
      cases found : (order.labels depth (keysOf children)).find?
          (fun label => (path ++ label).isPrefixOf start) with
      | none => exact ⟨whole, onWay, fun _ _ => Iff.rfl⟩
      | some label =>
        obtain ⟨child, mem, begins⟩ := found_label found
        have agrees := List.isPrefixOf_iff_prefix.mp begins
        have below := below_edge start own value isLeaf edges mem agrees
        simp only [descendBelow_eq order start edges depth path mem]
        split
        · exact ⟨goods _ mem, agrees, below⟩
        · have deeper := ih _ mem (goods _ mem) (depth + 1) agrees
          exact ⟨deeper.good, deeper.onWay, fun k v => (below k v).trans (deeper.pairs k v)⟩

end Descent

namespace RadixTree

def Stored (t : RadixTree V) (k : GoString) (v : Option V) : Prop := k ≠ [] ∧ Holds t.root k v

variable {t : RadixTree V}

theorem prefixSearch_eq_some_iff (good : Good t.root) (order : Order) (tour : Tour)
    {start : GoString} (some_ : start ≠ []) (k : GoString) (v : Option V) :
    t.prefixSearch order tour start k = some v ↔ t.Stored k v ∧ start <+: k := by
  have reaches := descendNode_reaches order start good 0 (List.nil_prefix)
  rw [prefixSearch, if_neg some_]
  simp only [if_pos (List.isPrefixOf_iff_prefix.mpr reaches.onWay)]
  rw [(collectPrefixMatches_gathers tour start reaches.good _ _).eq_some_iff, ← reaches.pairs]
  constructor
  · rintro ⟨rest, rfl, begins, holds⟩
    refine ⟨⟨?_, holds⟩, begins⟩
    rintro empty
    rw [empty] at begins
    exact some_ (prefix_nil.mp begins)
  · rintro ⟨⟨_, holds⟩, begins⟩
    exact ⟨k, rfl, begins, holds⟩

structure DeletesExactly (order : Order) (t : RadixTree V) (key : GoString) : Prop where
  reports : (t.delete order key).2 = true ↔ ∃ v, t.Stored key v
  wellFormed : WellFormed (t.delete order key).1.root
  stored : ∀ k v, (t.delete order key).1.Stored k v ↔ k ≠ key ∧ t.Stored k v

/-- What an insertion should do; only the empty key is refused. -/
structure InsertsExactly (order : Order) (t : RadixTree V) (key : GoString) (value : Option V) : Prop where
  accepts : (t.insert order key value).2 = none ↔ key ≠ []
  wellFormed : WellFormed (t.insert order key value).1.root
  stored : ∀ k v, (t.insert order key value).1.Stored k v ↔ (k = key ∧ k ≠ [] ∧ v = value) ∨ t.Stored k v

theorem deletesExactly (wellFormed : WellFormed t.root) (order : Order) (key : GoString) :
    DeletesExactly order t key := by
  have good := (good_iff_wellFormed _).mpr wellFormed
  by_cases empty : key = []
  · subst empty
    refine ⟨iff_of_false Bool.false_ne_true fun ⟨v, stored⟩ => stored.1 rfl, wellFormed, fun k v => ?_⟩
    exact ⟨fun stored => ⟨stored.1, stored⟩, fun stored => stored.2⟩
  · have deleted := deleteNode_spec order good key 0
    have result : t.delete order key = (⟨(deleteNode order 0 key t.root).1,
        if (deleteNode order 0 key t.root).2 then t.size - 1 else t.size⟩,
        (deleteNode order 0 key t.root).2) := by
      rw [delete, if_neg empty]
    refine ⟨?_, ?_, fun k v => ?_⟩
    · rw [result, deleted.found]
      exact exists_congr fun v => (and_iff_right empty).symm
    · rw [result]
      exact (good_iff_wellFormed _).mp deleted.good
    · rw [result, Stored, Stored, deleted.holds]
      exact and_left_comm

theorem insertsExactly (wellFormed : WellFormed t.root) (order : Order) {key : GoString}
    (free : ∀ k v, t.Stored k v → ¬ key <+: k) (value : Option V) : InsertsExactly order t key value := by
  have good := (good_iff_wellFormed _).mpr wellFormed
  by_cases empty : key = []
  · subst empty
    refine ⟨iff_of_false (Option.some_ne_none _) fun some_ => some_ rfl, wellFormed, fun k v => ?_⟩
    refine ⟨.inr, ?_⟩
    rintro (⟨rfl, some_, _⟩ | stored)
    · exact absurd rfl some_
    · exact stored
  · have free' : ∀ k v, Holds t.root k v → ¬ key <+: k := by
      intro k v holds begins
      refine free k v ⟨?_, holds⟩ begins
      rintro rfl
      exact empty (prefix_nil.mp begins)
    have inserted := insertNode_spec order value good empty free' 0
    have result : t.insert order key value =
        (⟨insertNode order value 0 key t.root, t.size + 1⟩, none) := by
      rw [insert, if_neg empty]
    refine ⟨?_, ?_, fun k v => ?_⟩
    · rw [result]
      exact iff_of_true rfl empty
    · rw [result]
      exact (good_iff_wellFormed _).mp inserted.good
    · rw [result, Stored, Stored, inserted.holds]
      constructor
      · rintro ⟨some_, ⟨rfl, rfl⟩ | holds⟩
        · exact .inl ⟨rfl, some_, rfl⟩
        · exact .inr ⟨some_, holds⟩
      · rintro (⟨rfl, some_, rfl⟩ | ⟨some_, holds⟩)
        · exact ⟨some_, .inl ⟨rfl, rfl⟩⟩
        · exact ⟨some_, .inr holds⟩

/-- On a well-formed tree, whatever the order of its maps: a prefix search finds exactly the pairs
    that begin with the prefix, a deletion deletes exactly its key, and an insertion of a key that
    begins no stored key adds exactly its pair. -/
theorem exact_of_wellFormed (t : RadixTree V) (wellFormed : WellFormed t.root) :
    (∀ order tour start k v, start ≠ [] →
      (t.prefixSearch order tour start k = some v ↔ t.Stored k v ∧ start <+: k)) ∧
    (∀ order key, DeletesExactly order t key) ∧
    ∀ order key value, (∀ k v, t.Stored k v → ¬ key <+: k) → InsertsExactly order t key value := by
  refine ⟨fun order tour start k v some_ => ?_, fun order key => ?_, fun order key value free => ?_⟩
  · exact prefixSearch_eq_some_iff ((good_iff_wellFormed _).mpr wellFormed) order tour some_ k v
  · exact deletesExactly wellFormed order key
  · exact insertsExactly wellFormed order free value

/-- The keys `ab` and `ac`. -/
def forked : RadixTree Nat :=
  ⟨.mk [] none false [(ascii "a", .mk (ascii "a") none false [(ascii "b", newLeaf (ascii "b") (some 1)),
    (ascii "c", newLeaf (ascii "c") (some 2))])], 2⟩

theorem exact_of_wellFormed_forked :
    WellFormed forked.root ∧
      ∀ order tour, forked.prefixSearch order tour (ascii "a") (ascii "ac") = some (some 2) := by
  have leaf : ∀ own (value : Option Nat), WellFormed (newLeaf own value) := fun own value =>
    (good_iff_wellFormed _).mp (newLeaf_good own value)
  have wellFormed : WellFormed forked.root := by
    refine .mk ⟨by decide, by simp⟩ ?_ (by simp [Node.children])
    rintro e member
    obtain rfl := mem_singleton.mp member
    refine .mk ⟨by decide, by decide⟩ ?_ (by simp [newLeaf, Node.isLeaf])
    simp [leaf]
  refine ⟨wellFormed, fun order tour => ?_⟩
  refine ((exact_of_wellFormed forked wellFormed).1 order tour (ascii "a") (ascii "ac") (some 2)
    (by decide)).mpr ⟨⟨by decide, ?_⟩, by decide⟩
  have second : Holds (.mk (ascii "a") none false [(ascii "b", newLeaf (ascii "b") (some 1)),
      (ascii "c", newLeaf (ascii "c") (some 2))]) (ascii "c" ++ []) (some 2) :=
    .child (mem_cons_of_mem _ (mem_singleton_self _)) .leaf
  exact .child (mem_singleton_self _) second

end RadixTree

end Monitor.Radix
