import Monitor.Radix.FiniteMap

/-! # The keys of the nodes

`insert` sets the field `Key` of a node and changes it when it splits an edge. A label may be empty:
that of a key which is inserted a second time.
-/

namespace Monitor.Radix

open GoText GoMap FiniteMap List

variable {V : Type}

/-- The tree behind some calls, each with its orders of the maps. -/
def updates (calls : List (Op GoString (Option V) × Order)) : RadixTree V :=
  calls.foldl (fun t c => match c.1 with
    | .insert key value => (t.insert c.2 key value).1
    | .delete key => (t.delete c.2 key).1) .newRadixTree

/-- Every child has its label as key, and labels that are not empty begin with different bytes. -/
structure Labels (children : List (GoString × Node V)) : Prop where
  keys : ∀ e ∈ children, e.2.key = e.1
  apart : (keysOf children).Pairwise fun l l' => l ≠ [] → l' ≠ [] → l.head? ≠ l'.head?

inductive Labelled : Node V → Prop where
  | mk {key : GoString} {value : Option V} {isLeaf : Bool} {children : List (GoString × Node V)} :
      Labels children → (∀ e ∈ children, Labelled e.2) → Labelled (.mk key value isLeaf children)

variable {children children' : List (GoString × Node V)} {label : GoString} {child : Node V}

theorem Labels.unique (labels : Labels children) {l l' : GoString} (mem : l ∈ keysOf children)
    (mem' : l' ∈ keysOf children) (some_ : l ≠ []) (same : l.head? = l'.head?) : l = l' := by
  have symmetric : Std.Symm fun l l' : GoString => l ≠ [] → l' ≠ [] → l.head? ≠ l'.head? :=
    ⟨fun _ _ apart some_ some_' => (apart some_' some_).symm⟩
  by_contra different
  refine labels.apart.forall mem mem' different some_ ?_ same
  rintro rfl
  exact some_ (head?_eq_none_iff.mp same)

theorem Labelled.set (labels : Labels children) (below : ∀ e ∈ children, Labelled e.2)
    (key : child.key = label) (labelled : Labelled child)
    (alone : ∀ l ∈ keysOf children, l ≠ [] → l.head? = label.head? → l = label) (own : GoString)
    (v : Option V) (isLeaf : Bool) : Labelled (.mk own v isLeaf (set label child children)) := by
  refine .mk ⟨fun e mem => ?_, ?_⟩ fun e mem => ?_
  · cases mem_of_mem_set mem with
    | inl new => exact new ▸ key
    | inr old => exact labels.keys e old
  · rw [keysOf_set]
    split
    · exact labels.apart
    · rename_i fresh
      refine pairwise_append.mpr ⟨labels.apart, pairwise_singleton _ _, fun l mem l' new some_ _ same => ?_⟩
      obtain rfl := mem_singleton.mp new
      exact fresh (alone l mem some_ same ▸ mem)
  · cases mem_of_mem_set mem with
    | inl new => exact new ▸ labelled
    | inr old => exact below e old

theorem Labelled.childless (key : GoString) (value : Option V) (isLeaf : Bool) :
    Labelled (.mk key value isLeaf []) :=
  .mk ⟨fun _ here => absurd here not_mem_nil, .nil⟩ fun _ here => absurd here not_mem_nil

theorem Labelled.sublist (labels : Labels children) (below : ∀ e ∈ children, Labelled e.2)
    (fewer : children' <+ children) (own : GoString) (v : Option V) (isLeaf : Bool) :
    Labelled (.mk own v isLeaf children') :=
  .mk ⟨fun e here => labels.keys e (fewer.subset here), labels.apart.sublist (fewer.map _)⟩
    fun e here => below e (fewer.subset here)

variable (order : Order)

theorem child_of_found {test : GoString → Bool} {depth : Nat}
    (found : (order.labels depth (keysOf children)).find? test = some label) :
    label ∈ keysOf children ∧ ∃ child, get label children = some child ∧ (label, child) ∈ children := by
  have mem := (order.perm _ _).mem_iff.mp (mem_of_find?_eq_some found)
  obtain ⟨child, at_⟩ := Option.isSome_iff_exists.mp (get_isSome_iff.mpr mem)
  exact ⟨mem, child, at_, mem_of_get at_⟩

theorem deleteBelow_cases (depth : Nat) (key : GoString)
    (found : get label children = some child) : (deleteBelow order depth label key children).1 =
        set label (deleteNode order (depth + 1) key child).1 children ∨
      (deleteBelow order depth label key children).1 <+ children := by
  induction children with
  | nil => cases found
  | cons e children ih =>
    rw [get_cons] at found
    rw [deleteBelow, GoMap.set]
    split at found
    · rename_i same
      cases found
      simp only [if_pos same]
      split
      · exact .inr (sublist_cons_self _ _)
      · exact .inl (by rw [same])
    · rename_i other
      simp only [if_neg other]
      exact (ih found).imp (congrArg (cons e)) (·.cons_cons e)

theorem Labelled.splitNode (labelled : Labelled child) (value : Option V) {key : GoString}
    (turned : longestCommonPrefix label key ≠ label) :
    Labelled (Radix.splitNode value (longestCommonPrefix label key) label key child) := by
  obtain ⟨l, k, first, second, apart⟩ := longestCommonPrefix_spec label key
  generalize longestCommonPrefix label key = common at *
  subst first second
  have moved : Labelled (child.setKey l) := by
    cases labelled with
    | mk labels below => exact .mk labels below
  have renamed : (child.setKey l).key = l := by
    cases child
    rfl
  have labels : Labels [(l, child.setKey l)] :=
    ⟨fun e mem => mem_singleton.mp mem ▸ renamed, pairwise_singleton _ _⟩
  have below : ∀ e ∈ [(l, child.setKey l)], Labelled e.2 := fun e mem => mem_singleton.mp mem ▸ moved
  simp only [Radix.splitNode, drop_left]
  split
  · rename_i longer
    refine .set labels below rfl (.childless k value true) (fun l' mem some_ same => ?_) _ _ _
    obtain rfl := mem_singleton.mp mem
    rcases apart with rfl | rfl | differ
    · exact absurd rfl some_
    · exact absurd (append_nil common) longer
    · exact absurd same differ
  · exact .mk labels below

theorem insertNode_key (value : Option V) (depth : Nat) (key : GoString) (t : Node V) :
    (insertNode order value depth key t).key = t.key := by
  cases t with
  | mk own v isLeaf children =>
    rw [insertNode]
    split
    · rfl
    · simp only
      split
      · rfl
      · split
        · rfl
        · split <;> rfl

theorem Labelled.insertNode (value : Option V) {t : Node V} (labelled : Labelled t) :
    ∀ depth key, Labelled (insertNode order value depth key t) := by
  induction labelled with
  | @mk own v isLeaf children labels below ih =>
    intro depth key
    rw [Radix.insertNode]
    split
    · rename_i fresh
      have own : (newLeaf key value).key = key := rfl
      refine .set labels below own (.childless key value true) (fun l mem some_ same => ?_) _ _ _
      have unmatched := find?_eq_none.mp fresh l ((order.perm _ _).mem_iff.mpr mem)
      exact absurd (longestCommonPrefix_ne_nil_iff.mpr ⟨some_, same⟩) (by simpa using unmatched)
    · rename_i label found
      have begins : longestCommonPrefix label key ≠ [] := by simpa using find?_some found
      obtain ⟨mem, child, at_, here⟩ := child_of_found order found
      have alone : ∀ l ∈ keysOf children, l ≠ [] → l.head? = label.head? → l = label :=
        fun l here some_ same => labels.unique here mem some_ same
      simp only [at_, insertBelow_eq order value depth _ at_]
      split
      · have own := (insertNode_key order value (depth + 1) (key.drop label.length) child).trans (labels.keys _ here)
        exact .set labels below own (ih _ here _ _) alone _ _ _
      · rename_i turned
        split
        · refine .set labels below ?_ ?_ alone _ _ _
          · cases child
            exact labels.keys _ here
          · cases below _ here with
            | mk labels below => exact .mk labels below
        · have kept : erase label children <+ children := filter_sublist
          refine .set ⟨fun e left => labels.keys e (kept.subset left), labels.apart.sublist (kept.map _)⟩
            (fun e left => below e (kept.subset left)) ?_ ((below _ here).splitNode value turned)
            (fun l left some_ same => ?_) _ _ _
          · unfold Radix.splitNode
            simp only
            split <;> rfl
          · obtain ⟨rest, _, first, _⟩ := longestCommonPrefix_spec label key
            have head : (longestCommonPrefix label key).head? = label.head? := by
              conv_rhs => rw [first]
              rw [head?_append_of_ne_nil _ begins]
            obtain ⟨other, left⟩ := (mem_keysOf_erase label).mp left
            exact absurd (alone l left some_ (same.trans head)) other

theorem deleteNode_key (depth : Nat) (key : GoString) (t : Node V) :
    (deleteNode order depth key t).1.key = t.key := by
  cases t with
  | mk own v isLeaf children =>
    rw [deleteNode]
    split
    · rfl
    · split <;> rfl

theorem Labelled.deleteNode {t : Node V} (labelled : Labelled t) :
    ∀ depth key, Labelled (deleteNode order depth key t).1 := by
  induction labelled with
  | @mk own v isLeaf children labels below ih =>
    intro depth key
    rw [Radix.deleteNode]
    split
    · exact .mk labels below
    · split
      · exact .mk labels below
      · rename_i label found
        obtain ⟨mem, child, at_, here⟩ := child_of_found order found
        simp only
        cases deleteBelow_cases order depth (key.drop label.length) at_ with
        | inl kept =>
          rw [kept]
          refine .set labels below ?_ (ih _ here _ _) (fun l left some_ same => labels.unique left mem some_ same) _ _ _
          exact (deleteNode_key order _ _ child).trans (labels.keys _ here)
        | inr fewer => exact .sublist labels below fewer _ _ _

/-- After any calls, in any orders of the maps: in every node of the tree each child has its label as
    key, and no two labels that are not empty begin with the same byte. -/
theorem updates_labelled (calls : List (Op GoString (Option V) × Order)) : Labelled (updates calls).root := by
  unfold updates
  refine foldlRecOn (motive := fun t : RadixTree V => Labelled t.root) calls _ (.childless [] none false)
    fun t labelled c _ => ?_
  split
  · unfold RadixTree.insert
    split
    · exact labelled
    · exact labelled.insertNode c.2 _ 0 _
  · unfold RadixTree.delete
    split
    · exact labelled
    · exact labelled.deleteNode c.2 0 _

end Monitor.Radix
