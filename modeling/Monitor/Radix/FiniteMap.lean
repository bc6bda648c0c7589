import Monitor.Lib.FiniteMap
import Monitor.Radix.Updates

/-! # When the radix tree is a finite map

The tree answers as a finite map would exactly as long as no key is inserted that is, or
begins, a key of the map (`alwaysRight_iff`). Until then the tree is in good shape.
An insertion of such a key spoils it: the size is wrong, or the edge that the key ends in
is overwritten, or an empty label is added that some order takes for every other key.
-/

namespace Monitor.Radix

open GoText FiniteMap Function GoMap

variable {V : Type}

variable {v : Option V} {k own : GoString}

section Spoiling

/-- An order that goes through an empty label first. -/
def emptyFirst : Order where
  labels := fun _ ls => if ls.contains [] then [] :: ls.erase [] else ls
  perm := by
    intro depth ls
    split
    · rename_i member
      exact (List.perm_cons_erase (List.contains_iff_mem.mp member)).symm
    · exact .refl ls

theorem searchBelow_setChild (order : Order) (depth : Nat) (label key : GoString) (child : Node V)
    (children : List (GoString × Node V)) :
    searchBelow order depth label key (set label child children) =
      searchNode order (depth + 1) key child := by
  induction children with
  | nil => simp [GoMap.set, searchBelow]
  | cons first children ih =>
    rw [GoMap.set]
    split
    · simp [searchBelow]
    · rename_i other
      rw [searchBelow, if_neg other, ih]

variable {children : List (GoString × Node V)} {child : Node V} {isLeaf : Bool}

theorem searchNode_setChild (edges : Edges children)
    {label : GoString} (mem : (label, child) ∈ children) (child' : Node V)
    (order : Order) (depth : Nat) {value : Option V} (rest : GoString) :
    searchNode order depth (label ++ rest) (.mk own value isLeaf (set label child' children)) =
      searchNode order (depth + 1) rest child' := by
  have some_ := edges.nonempty _ mem
  have edges' := edges_setChild edges some_
    (fun e edge same => congrArg Prod.fst (edges.unique edge mem same)) child'
  have mem' : (label, child') ∈ set label child' children :=
    (mem_setChild edges label child' _).mpr (.inl rfl)
  rw [searchNode, if_neg (by simp [some_]), edges'.find_begins order depth mem']
  simp only
  rw [searchBelow_setChild, List.drop_left]

theorem searchNode_emptyFirst {value v : Option V} {key : GoString} (some_ : key ≠ []) (depth : Nat) :
    searchNode emptyFirst depth key (.mk own value isLeaf (set [] (newLeaf [] v) children)) =
      (none, false) := by
  have listed : [] ∈ keysOf (set [] (newLeaf [] v) children) := by
    induction children with
    | nil => exact List.mem_singleton_self _
    | cons first children ih =>
      rw [GoMap.set]
      split
      · exact List.mem_cons_self
      · exact List.mem_cons_of_mem _ ih
  have found : (emptyFirst.labels depth (keysOf (set [] (newLeaf [] v) children))).find?
      (fun label => label.isPrefixOf key) = some [] := by
    simp only [emptyFirst, if_pos (List.contains_iff_mem.mpr listed)]
    rfl
  have leaf : searchNode emptyFirst (depth + 1) key (newLeaf [] v) = (none, false) := by
    rw [newLeaf, searchNode, if_neg fun stop => some_ stop.1]
    rfl
  rw [searchNode, if_neg fun stop => some_ stop.1, found]
  simp only
  rw [searchBelow_setChild]
  exact leaf

theorem insertNode_nil (order : Order) (value v : Option V) (depth : Nat) (isLeaf : Bool)
    (children : List (GoString × Node V)) : insertNode order value depth [] (.mk own v isLeaf children) =
      .mk own v isLeaf (set [] (newLeaf [] value) children) := by
  have none_ : ∀ e ∈ children, decide (longestCommonPrefix e.1 [] ≠ []) = false := by
    intro e _
    cases e.1 <;> rfl
  rw [insertNode, find_no_label order depth none_]

theorem searchNode_overwritten (edges : Edges children)
    {key l : GoString} (mem : (key ++ l, child) ∈ children) (some_ : key ≠ [])
    (longer : l ≠ []) (child' : Node V) (order : Order) (depth : Nat) (value : Option V)
    (isLeaf : Bool) :
    searchNode order depth key (.mk own value isLeaf (set (key ++ l) child' children)) =
      (none, false) := by
  have none_ : ∀ e ∈ set (key ++ l) child' children, e.1.isPrefixOf key = false := by
    intro e edge
    rw [Bool.eq_false_iff]
    intro begins
    have label : e.1 = key ++ l := by
      rcases (mem_setChild edges _ child' e).mp edge with rfl | ⟨old, _⟩
      · rfl
      · have heads : e.1.head? = (key ++ l).head? := by
          rw [head_of_begins (edges.nonempty e old) begins, List.head?_append_of_ne_nil key some_]
        rw [edges.unique old mem heads]
    have short := (List.isPrefixOf_iff_prefix.mp begins).length_le
    rw [label, List.length_append] at short
    have := List.length_pos_iff.mpr longer
    omega
  rw [searchNode, if_neg fun stop => some_ stop.1, find_no_label order depth none_]

theorem ends_inside_edge {common l k rest : GoString} (apart : l = [] ∨ k = [] ∨ l.head? ≠ k.head?)
    (begins : common ++ k <+: common ++ l ++ rest) (turned : l ≠ []) : k = [] := by
  rcases apart with none_ | none_ | heads
  · exact absurd none_ turned
  · exact none_
  · by_contra further
    rw [List.append_assoc, List.prefix_append_right_inj] at begins
    obtain ⟨more, whole⟩ := begins
    have same := congrArg List.head? whole
    rw [List.head?_append_of_ne_nil _ further, List.head?_append_of_ne_nil _ turned] at same
    exact heads same.symm

/-- A key that begins a key of the node, without being one itself, spoils the node: in some order
    some key is not found as it should be. -/
theorem insertNode_spoils {t : Node V} (good : Good t) {key : GoString} (some_ : key ≠ [])
    (absent : ∀ v, ¬ Holds t key v) (holds : Holds t k v)
    (begins : key <+: k) (order : Order) (value : Option V) (depth : Nat) :
    ∃ order' k' v', ((k' = key ∧ v' = value) ∨ Holds t k' v') ∧
      searchNode order' depth k' (insertNode order value depth key t) ≠ (v', true) := by
  induction size : key.length using Nat.strong_induction_on generalizing t key k v depth with
  | _ n ih =>
    cases good with
    | @mk own old isLeaf children edges goods alives =>
      rcases holds_mk_iff.mp holds with ⟨rfl, _⟩ | ⟨⟨label, child⟩, mem, rest, rfl, deeper⟩
      · exact absurd (List.prefix_nil.mp begins) some_
      · have same : label.head? = key.head? := by
          obtain ⟨more, whole⟩ := begins
          have heads := congrArg List.head? whole
          rwa [List.head?_append_of_ne_nil _ some_,
            List.head?_append_of_ne_nil _ (edges.nonempty _ mem), eq_comm] at heads
        have shared : longestCommonPrefix label key ≠ [] :=
          longestCommonPrefix_ne_nil_iff.mpr ⟨edges.nonempty _ mem, same⟩
        obtain ⟨l, k, front, back, apart⟩ := longestCommonPrefix_spec label key
        rw [insertNode, edges.find_shares order depth mem same]
        simp only
        generalize longestCommonPrefix label key = common at *
        subst front back
        by_cases turned : l = []
        · subst turned
          rw [List.append_nil] at *
          have begins' : k <+: rest := (List.prefix_append_right_inj common).mp begins
          rw [if_pos rfl, insertBelow_eq order value depth _ (getChild_eq edges mem), List.drop_left]
          by_cases ends : k = []
          · subst ends
            rw [List.append_nil] at absent
            have further : rest ≠ [] := by
              rintro rfl
              refine absent v ?_
              rw [← List.append_nil common]
              exact .child mem deeper
            refine ⟨emptyFirst, common ++ rest, v, .inr (.child mem deeper), ?_⟩
            cases child with
            | mk own' v' isLeaf' children' =>
              rw [searchNode_setChild edges mem, insertNode_nil, searchNode_emptyFirst further]
              simp
          · have absent' : ∀ v, ¬ Holds child k v := fun v found => absent v (.child mem found)
            have shorter : k.length < n := by
              have := List.length_pos_iff.mpr shared
              rw [← size, List.length_append]
              omega
            obtain ⟨order', k', v', expected, missed⟩ := ih k.length shorter (goods _ mem) ends
              absent' deeper begins' (depth + 1) rfl
            refine ⟨order', common ++ k', v', ?_, ?_⟩
            · rcases expected with ⟨rfl, rfl⟩ | held
              · exact .inl ⟨rfl, rfl⟩
              · exact .inr (.child mem held)
            · rwa [searchNode_setChild edges mem]
        · obtain rfl := ends_inside_edge apart begins turned
          rw [List.append_nil] at *
          have different : common ≠ common ++ l := by simpa using turned
          rw [if_neg different, getChild_eq edges mem]
          simp only [if_true]
          refine ⟨order, common, value, .inl ⟨rfl, rfl⟩, ?_⟩
          rw [searchNode_overwritten edges mem shared turned]
          simp

end Spoiling

/-- A call of `Insert` or `Delete` with a key that is not empty. -/
structure Call (V : Type) where
  op : Op GoString (Option V)
  order : Order
  nonempty : op.key ≠ []

def RadixTree.call (t : RadixTree V) (c : Call V) : RadixTree V :=
  match c.op with
  | .insert key value => (t.insert c.order key value).1
  | .delete key => (t.delete c.order key).1

def run (calls : List (Call V)) : RadixTree V := calls.foldl RadixTree.call RadixTree.newRadixTree

def mapOf (calls : List (Call V)) : GoString → Option (Option V) := content (calls.map (·.op))

/-- The tree behind some calls answers as the map does. -/
structure Right (calls : List (Call V)) : Prop where
  search : ∀ order k, (run calls).search order k =
    match mapOf calls k with
    | some v => (v, true)
    | none => (none, false)
  size : (run calls).size = ((keys (mapOf calls)).ncard : Int)

def AlwaysRight (calls : List (Call V)) : Prop := ∀ first, first <+: calls → Right first

/-- The call does not insert a key that is, or begins, a key of the map. -/
def Fits (calls : List (Call V)) (c : Call V) : Prop :=
  match c.op with
  | .insert key _ => ∀ k, mapOf calls k ≠ none → ¬ key <+: k
  | .delete _ => True

def Careful (calls : List (Call V)) : Prop := ∀ first c, first ++ [c] <+: calls → Fits first c

section Runs

theorem run_concat (calls : List (Call V)) (c : Call V) : run (calls ++ [c]) = (run calls).call c := by
  rw [run, List.foldl_append]
  rfl

theorem mapOf_concat (calls : List (Call V)) (c : Call V) :
    mapOf (calls ++ [c]) = c.op.apply (mapOf calls) := by
  rw [mapOf, List.map_append]
  exact content_concat _ _

variable {calls : List (Call V)}

theorem mapOf_nonempty
    (found : mapOf calls k = some v) : k ≠ [] := by
  refine content_some_of_forall (P := fun k => k ≠ []) ?_ found
  intro op mem
  obtain ⟨c, _, rfl⟩ := List.mem_map.mp mem
  exact c.nonempty

theorem careful_concat_iff (calls : List (Call V)) (c : Call V) :
    Careful (calls ++ [c]) ↔ Careful calls ∧ Fits calls c := by
  constructor
  · intro careful
    refine ⟨fun first c' begins => careful first c' ?_, careful calls c List.prefix_rfl⟩
    exact begins.trans (List.prefix_append calls [c])
  · rintro ⟨careful, fits⟩ first c' begins
    rcases List.prefix_concat_iff.mp begins with whole | earlier
    · obtain ⟨rfl, same⟩ := List.append_inj' whole rfl
      obtain rfl := List.singleton_inj.mp same
      exact fits
    · exact careful first c' earlier

theorem alwaysRight_concat_iff (calls : List (Call V)) (c : Call V) :
    AlwaysRight (calls ++ [c]) ↔ AlwaysRight calls ∧ Right (calls ++ [c]) := by
  constructor
  · intro right
    refine ⟨fun first begins => right first ?_, right _ List.prefix_rfl⟩
    exact begins.trans (List.prefix_append calls [c])
  · rintro ⟨right, last⟩ first begins
    rcases List.prefix_concat_iff.mp begins with rfl | earlier
    · exact last
    · exact right first earlier

/-- A tree in good shape that holds the map. -/
structure Represents (t : RadixTree V) (m : GoString → Option (Option V)) : Prop where
  good : Good t.root
  holds : ∀ k v, Holds t.root k v ↔ m k = some v
  size : t.size = ((keys m).ncard : Int)

theorem Represents.call {t : RadixTree V} (rep : Represents t (mapOf calls))
    {c : Call V} (fits : Fits calls c) : Represents (t.call c) (mapOf (calls ++ [c])) := by
  have some_ := c.nonempty
  have finite : (keys (mapOf calls)).Finite := keys_finite _
  rw [mapOf_concat]
  simp only [Fits] at fits
  simp only [RadixTree.call]
  cases op : c.op with
  | insert key value =>
    rw [op] at some_ fits
    change key ≠ [] at some_
    have free : ∀ k v, Holds t.root k v → ¬ key <+: k := by
      intro k v holds
      refine fits k ?_
      rw [(rep.holds k v).mp holds]
      exact Option.some_ne_none v
    have inserted := insertNode_spec c.order value rep.good some_ free 0
    have fresh : key ∉ keys (mapOf calls) := fun mem => fits key mem List.prefix_rfl
    simp only [RadixTree.insert, if_neg some_, Op.apply]
    refine ⟨inserted.good, fun k v => ?_, ?_⟩
    · rw [inserted.holds, rep.holds]
      by_cases same : k = key
      · have none_ : mapOf calls key = none := not_not.mp fresh
        rw [same, none_, update_self]
        simp [eq_comm]
      · simp [same]
    · rw [keys_insert, Set.ncard_insert_of_notMem fresh finite, rep.size]
      rfl
  | delete key =>
    rw [op] at some_
    change key ≠ [] at some_
    have deleted := deleteNode_spec c.order rep.good key 0
    simp only [RadixTree.delete, if_neg some_, Op.apply]
    refine ⟨deleted.good, fun k v => ?_, ?_⟩
    · rw [deleted.holds, rep.holds]
      by_cases same : k = key
      · simp [same]
      · simp [same]
    · have found : (deleteNode c.order 0 key t.root).2 = true ↔ key ∈ keys (mapOf calls) := by
        rw [deleted.found]
        simp only [rep.holds]
        exact Option.ne_none_iff_exists'.symm
      rw [keys_delete]
      split
      · rename_i present
        have count := Set.ncard_sdiff_singleton_add_one (found.mp present) finite
        rw [rep.size, ← count]
        push_cast
        ring
      · rename_i missing
        rw [Set.sdiff_singleton_eq_self (mt found.mpr missing), rep.size]

theorem represents_of_careful (careful : Careful calls) :
    Represents (run calls) (mapOf calls) := by
  induction calls using List.reverseRecOn with
  | nil =>
    refine ⟨.mk ⟨by simp, .nil⟩ (by simp) (by simp), fun k v => ?_, ?_⟩
    · simp [run, RadixTree.newRadixTree, holds_mk_iff, mapOf, content]
    · simp [run, RadixTree.newRadixTree, mapOf, content, keys]
  | append_singleton calls c ih =>
    obtain ⟨earlier, fits⟩ := (careful_concat_iff calls c).mp careful
    rw [run_concat]
    exact (ih earlier).call fits

theorem Represents.right (rep : Represents (run calls) (mapOf calls)) :
    Right calls where
  search := by
    intro order k
    rw [RadixTree.search]
    split
    · rename_i empty
      split
      · rename_i v found
        exact absurd empty (mapOf_nonempty found)
      · rfl
    · split
      · rename_i v found
        exact searchNode_of_holds rep.good ((rep.holds k v).mpr found) order 0
      · rename_i none_
        refine (searchNode_cases rep.good k order 0).resolve_right ?_
        rintro ⟨v, holds⟩
        rw [(rep.holds k v).mp holds] at none_
        cases none_
  size := rep.size

theorem Represents.fits (rep : Represents (run calls) (mapOf calls))
    {c : Call V} (right : Right (calls ++ [c])) : Fits calls c := by
  have some_ := c.nonempty
  simp only [Fits]
  cases op : c.op with
  | delete key => trivial
  | insert key value =>
    rw [op] at some_
    change key ≠ [] at some_
    intro k present begins
    obtain ⟨v, found⟩ := Option.ne_none_iff_exists'.mp present
    have searches := right.search
    have size := right.size
    simp only [run_concat, mapOf_concat, RadixTree.call, op, RadixTree.insert, if_neg some_,
      Op.apply] at searches size
    by_cases mem : key ∈ keys (mapOf calls)
    · rw [keys_insert, Set.insert_eq_of_mem mem, rep.size] at size
      omega
    · have absent : ∀ v, ¬ Holds (run calls).root key v := by
        intro v holds
        refine mem ?_
        change mapOf calls key ≠ none
        rw [(rep.holds key v).mp holds]
        exact Option.some_ne_none v
      obtain ⟨order, k', v', expected, missed⟩ := insertNode_spoils rep.good some_ absent
        ((rep.holds k v).mpr found) begins c.order value 0
      have stored : k' ≠ [] ∧ update (mapOf calls) key (some value) k' = some v' := by
        rcases expected with ⟨rfl, rfl⟩ | holds
        · exact ⟨some_, update_self ..⟩
        · have other : k' ≠ key := by
            rintro rfl
            exact absent v' holds
          have found' := (rep.holds k' v').mp holds
          exact ⟨mapOf_nonempty found', by rw [update_of_ne other, found']⟩
      have answer := searches order k'
      rw [RadixTree.search, if_neg stored.1, stored.2] at answer
      exact missed answer

/-- The tree answers as a finite map behind every call, in every order, exactly when no call inserts
    a key that is, or begins, a key of the map. -/
theorem alwaysRight_iff (calls : List (Call V)) : AlwaysRight calls ↔ Careful calls := by
  induction calls using List.reverseRecOn with
  | nil =>
    refine iff_of_true (fun first begins => ?_) (fun first c begins => ?_)
    · rw [List.prefix_nil.mp begins]
      exact (represents_of_careful fun first c begins => by simp at begins).right
    · simp at begins
  | append_singleton calls c ih =>
    rw [alwaysRight_concat_iff, careful_concat_iff, ih]
    refine and_congr_right fun careful => ?_
    have represents := represents_of_careful careful
    refine ⟨represents.fits, fun fits => ?_⟩
    exact (represents_of_careful ((careful_concat_iff calls c).mpr ⟨careful, fits⟩)).right

end Runs

def asListed : Order := ⟨fun _ ls => ls, fun _ ls => .refl ls⟩

def insertCall (key : String) (value : Nat) (nonempty : ascii key ≠ []) : Call Nat :=
  ⟨.insert (ascii key) (some value), asListed, nonempty⟩

/-- A key that begins another one: it is not found, and the other key has its value. A key inserted
    twice: its first value stays, and it counts twice. A key at a fork: in some order the keys beyond
    the fork are gone. -/
theorem spoiled_runs :
    let shorter := run [insertCall "abc" 1 (by decide), insertCall "ab" 2 (by decide)]
    let twice := run [insertCall "ab" 1 (by decide), insertCall "ab" 2 (by decide)]
    let fork := run [insertCall "ab" 1 (by decide), insertCall "ac" 2 (by decide),
      insertCall "a" 3 (by decide)]
    shorter.search asListed (ascii "ab") = (none, false) ∧
    shorter.search asListed (ascii "abc") = (some 2, true) ∧
    twice.search asListed (ascii "ab") = (some 1, true) ∧ twice.size = 2 ∧
    fork.search emptyFirst (ascii "ab") = (none, false) := by
  decide

end Monitor.Radix
