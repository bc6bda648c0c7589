import Monitor.Radix.Tree

/-! # Radix trees in good shape

A node is in good shape when the labels of its children are not empty and begin with
different bytes, and every child leads to a leaf. Then at most one label matches a
key, so the order of a loop does not matter, and a lookup follows the one path that
spells the key.
-/

namespace Monitor.Radix

open GoText List GoMap

variable {V : Type}

/-- A key and a value that can be read off a path from a node to a leaf. -/
inductive Holds : Node V → GoString → Option V → Prop where
  | leaf {own : GoString} {value : Option V} {children : List (GoString × Node V)} :
      Holds (.mk own value true children) [] value
  | child {own : GoString} {value v : Option V} {isLeaf : Bool} {children : List (GoString × Node V)}
      {label key : GoString} {child : Node V} :
      (label, child) ∈ children → Holds child key v → Holds (.mk own value isLeaf children) (label ++ key) v

def Alive (t : Node V) : Prop := ∃ key v, Holds t key v

/-- Labels that are not empty and begin with different bytes. -/
structure Edges (children : List (GoString × Node V)) : Prop where
  nonempty : ∀ e ∈ children, e.1 ≠ []
  apart : children.Pairwise fun e e' => e.1.head? ≠ e'.1.head?

inductive Good : Node V → Prop where
  | mk {own : GoString} {value : Option V} {isLeaf : Bool} {children : List (GoString × Node V)} :
      Edges children → (∀ e ∈ children, Good e.2) → (∀ e ∈ children, Alive e.2) →
      Good (.mk own value isLeaf children)

variable {key own : GoString}

section Paths

theorem holds_mk_iff {value v : Option V} {isLeaf : Bool} {children : List (GoString × Node V)} :
    Holds (.mk own value isLeaf children) key v ↔
      (key = [] ∧ isLeaf = true ∧ v = value) ∨
        ∃ e ∈ children, ∃ rest, key = e.1 ++ rest ∧ Holds e.2 rest v := by
  constructor
  · intro holds
    cases holds with
    | leaf => exact .inl ⟨rfl, rfl, rfl⟩
    | child mem holds => exact .inr ⟨_, mem, _, rfl, holds⟩
  · rintro (⟨rfl, rfl, rfl⟩ | ⟨e, mem, rest, rfl, holds⟩)
    · exact .leaf
    · exact .child mem holds

theorem holds_newLeaf_iff {value v : Option V} :
    Holds (newLeaf own value) key v ↔ key = [] ∧ v = value := by
  simp [newLeaf, holds_mk_iff]

theorem newLeaf_good (own : GoString) (value : Option V) : Good (newLeaf own value) :=
  .mk ⟨by simp, .nil⟩ (by simp) (by simp)

theorem newLeaf_alive (own : GoString) (value : Option V) : Alive (newLeaf own value) := ⟨[], value, .leaf⟩

theorem holds_setKey_iff {t : Node V} {v : Option V} : Holds (t.setKey own) key v ↔ Holds t key v := by
  cases t
  rw [Node.setKey, holds_mk_iff, holds_mk_iff]

theorem Good.setKey {t : Node V} (good : Good t) (own : GoString) : Good (t.setKey own) := by
  cases good with
  | mk edges goods alives => exact .mk edges goods alives

theorem Alive.setKey {t : Node V} (alive : Alive t) (own : GoString) : Alive (t.setKey own) := by
  obtain ⟨key, v, holds⟩ := alive
  exact ⟨key, v, holds_setKey_iff.mpr holds⟩

end Paths

section Common

theorem longestCommonPrefix_ne_nil_iff {label key : GoString} :
    longestCommonPrefix label key ≠ [] ↔ label ≠ [] ∧ label.head? = key.head? := by
  cases label with
  | nil => simp [longestCommonPrefix]
  | cons a label =>
    cases key with
    | nil => simp [longestCommonPrefix]
    | cons b key =>
      by_cases same : a = b
      · simp [longestCommonPrefix, same]
      · simp [longestCommonPrefix, same]

theorem longestCommonPrefix_spec (label key : GoString) :
    ∃ l k, label = longestCommonPrefix label key ++ l ∧ key = longestCommonPrefix label key ++ k ∧
      (l = [] ∨ k = [] ∨ l.head? ≠ k.head?) := by
  induction label generalizing key with
  | nil => exact ⟨[], key, by simp [longestCommonPrefix], by simp [longestCommonPrefix], .inl rfl⟩
  | cons a label ih =>
    cases key with
    | nil =>
      exact ⟨a :: label, [], by simp [longestCommonPrefix], by simp [longestCommonPrefix],
        .inr (.inl rfl)⟩
    | cons b key =>
      by_cases same : a = b
      · subst same
        obtain ⟨l, k, first, second, apart⟩ := ih key
        refine ⟨l, k, ?_, ?_, apart⟩
        · simpa [longestCommonPrefix] using first
        · simpa [longestCommonPrefix] using second
      · exact ⟨a :: label, b :: key, by simp [longestCommonPrefix, same],
          by simp [longestCommonPrefix, same], .inr (.inr (by simpa using same))⟩

end Common

variable {label : GoString}

section Labels

variable {children : List (GoString × Node V)}

variable {e : GoString × Node V} {child : Node V} {test : GoString → Bool} {e' : GoString × Node V}

theorem Edges.unique (edges : Edges children) (mem : e ∈ children)
    (mem' : e' ∈ children) (same : e.1.head? = e'.1.head?) : e = e' := by
  have symmetric : Std.Symm fun e e' : GoString × Node V => e.1.head? ≠ e'.1.head? :=
    ⟨fun _ _ apart => apart.symm⟩
  by_contra different
  exact edges.apart.forall mem mem' different same

theorem Edges.nodup (edges : Edges children) : (keysOf children).Nodup := by
  rw [List.Nodup, keysOf, pairwise_map]
  exact edges.apart.imp fun apart same => apart (congrArg _ same)

theorem getChild_eq (edges : Edges children)
    (mem : (label, child) ∈ children) : get label children = some child :=
  get_of_mem edges.nodup mem

theorem Edges.tail (edges : Edges (e :: children)) : Edges children :=
  ⟨fun e' mem => edges.nonempty e' (mem_cons_of_mem e mem), edges.apart.of_cons⟩

theorem Edges.label_ne (edges : Edges (e :: children)) (mem : e' ∈ children) : e'.1 ≠ e.1 := by
  intro same
  exact rel_of_pairwise_cons edges.apart mem (congrArg _ same.symm)

theorem mem_setChild (edges : Edges children) (label : GoString) (child : Node V)
    (e : GoString × Node V) : e ∈ set label child children ↔
      e = (label, child) ∨ e ∈ children ∧ e.1 ≠ label :=
  mem_set edges.nodup label child e

theorem edges_setChild (edges : Edges children) (some_ : label ≠ [])
    (apart : ∀ e ∈ children, e.1.head? = label.head? → e.1 = label) (child : Node V) :
    Edges (set label child children) := by
  induction children with
  | nil => exact ⟨by simpa [GoMap.set] using some_, pairwise_singleton _ _⟩
  | cons first children ih =>
    obtain ⟨l, c⟩ := first
    have others := (pairwise_cons.mp edges.apart).1
    rw [GoMap.set]
    split
    · rename_i same
      subst same
      refine ⟨?_, pairwise_cons.mpr ⟨others, edges.tail.apart⟩⟩
      intro e mem
      rcases mem_cons.mp mem with rfl | later
      · exact some_
      · exact edges.tail.nonempty e later
    · rename_i other
      have rest := ih edges.tail fun e mem => apart e (mem_cons_of_mem _ mem)
      refine ⟨?_, pairwise_cons.mpr ⟨?_, rest.apart⟩⟩
      · intro e mem
        rcases mem_cons.mp mem with rfl | later
        · exact edges.nonempty _ mem_cons_self
        · exact rest.nonempty e later
      · intro e mem
        rcases (mem_setChild edges.tail label child e).mp mem with rfl | ⟨later, _⟩
        · exact fun same => other (apart (l, c) mem_cons_self same)
        · exact others e later

theorem edges_eraseChild (edges : Edges children) (label : GoString) :
    Edges (erase label children) :=
  ⟨fun e mem => edges.nonempty e (mem_of_mem_filter mem), edges.apart.filter _⟩

theorem found_label {order : Order} {depth : Nat}
    (found : (order.labels depth (keysOf children)).find? test = some label) :
    ∃ child, (label, child) ∈ children ∧ test label = true := by
  obtain ⟨e, mem, rfl⟩ := mem_map.mp
    ((order.perm _ _).mem_iff.mp (mem_of_find?_eq_some found))
  exact ⟨e.2, mem, find?_some found⟩

theorem find_label (order : Order) (depth : Nat)
    (mem : (label, child) ∈ children) (passes : test label = true)
    (only : ∀ e ∈ children, test e.1 = true → e.1 = label) :
    (order.labels depth (keysOf children)).find? test = some label := by
  cases found : (order.labels depth (keysOf children)).find? test with
  | none =>
    have listed : label ∈ keysOf children := mem_map_of_mem mem
    exact absurd passes (find?_eq_none.mp found label ((order.perm _ _).mem_iff.mpr listed))
  | some l =>
    obtain ⟨child, edge, passes⟩ := found_label found
    exact congrArg some (only _ edge passes)

theorem find_no_label (order : Order) (depth : Nat) (none_ : ∀ e ∈ children, test e.1 = false) :
    (order.labels depth (keysOf children)).find? test = none := by
  rw [find?_eq_none]
  intro l mem
  obtain ⟨e, edge, rfl⟩ := mem_map.mp ((order.perm _ _).mem_iff.mp mem)
  simp [none_ e edge]

theorem head_of_begins {label key : GoString} (some_ : label ≠ [])
    (begins : label.isPrefixOf key = true) : label.head? = key.head? := by
  obtain ⟨rest, rfl⟩ := List.isPrefixOf_iff_prefix.mp begins
  cases label with
  | nil => exact absurd rfl some_
  | cons b label => rfl

theorem Edges.find_begins (edges : Edges children) (order : Order) (depth : Nat)
    (mem : (label, child) ∈ children) (rest : GoString) :
    (order.labels depth (keysOf children)).find? (fun l => l.isPrefixOf (label ++ rest)) =
      some label := by
  have begins : label.isPrefixOf (label ++ rest) = true :=
    List.isPrefixOf_iff_prefix.mpr (prefix_append label rest)
  refine find_label order depth mem begins fun e edge passes => ?_
  have heads := (head_of_begins (edges.nonempty e edge) passes).trans
    (head_of_begins (edges.nonempty _ mem) begins).symm
  rw [edges.unique edge mem heads]

theorem Edges.find_shares (edges : Edges children) (order : Order) (depth : Nat) {label key : GoString}
    (mem : (label, child) ∈ children) (same : label.head? = key.head?) :
    (order.labels depth (keysOf children)).find? (fun l => longestCommonPrefix l key ≠ []) =
      some label := by
  refine find_label order depth mem ?_ fun e edge shares => ?_
  · exact decide_eq_true (longestCommonPrefix_ne_nil_iff.mpr ⟨edges.nonempty _ mem, same⟩)
  · have heads := (longestCommonPrefix_ne_nil_iff.mp (of_decide_eq_true shares)).2
    exact congrArg Prod.fst (edges.unique edge mem (heads.trans same.symm))

end Labels

section Lookups

variable {children : List (GoString × Node V)}

theorem searchBelow_eq (edges : Edges children) (order : Order) (depth : Nat)
    {child : Node V} (mem : (label, child) ∈ children) (key : GoString) :
    searchBelow order depth label key children = searchNode order (depth + 1) key child := by
  induction children with
  | nil => cases mem
  | cons first children ih =>
    rw [searchBelow.eq_def]
    rcases mem_cons.mp mem with rfl | later
    · simp
    · simp only
      rw [if_neg (edges.label_ne later).symm, ih edges.tail later]

theorem searchNode_of_holds {t : Node V} {v : Option V} (good : Good t)
    (holds : Holds t key v) (order : Order) (depth : Nat) : searchNode order depth key t = (v, true) := by
  induction holds generalizing depth with
  | leaf => rw [searchNode, if_pos ⟨rfl, rfl⟩]
  | @child own value v isLeaf children label key child mem holds ih =>
    cases good with
    | mk edges goods alive =>
      have some_ : label ++ key ≠ [] := by simp [edges.nonempty _ mem]
      rw [searchNode, if_neg fun empty => some_ empty.1, edges.find_begins order depth mem]
      simp only
      rw [searchBelow_eq edges order depth mem, drop_left]
      exact ih (goods _ mem) (depth + 1)

theorem searchNode_cases {t : Node V} (good : Good t) (key : GoString) (order : Order) (depth : Nat) :
    searchNode order depth key t = (none, false) ∨ ∃ v, Holds t key v := by
  induction size : key.length using Nat.strong_induction_on generalizing t key depth with
  | _ n ih =>
    cases good with
    | @mk own value isLeaf children edges goods alive =>
      rw [searchNode]
      split
      · rename_i stop
        obtain ⟨rfl, leaf⟩ := stop
        subst leaf
        exact .inr ⟨value, .leaf⟩
      · split
        · exact .inl rfl
        · rename_i label found
          obtain ⟨child, mem, begins⟩ := found_label found
          obtain ⟨rest, rfl⟩ := List.isPrefixOf_iff_prefix.mp begins
          rw [searchBelow_eq edges order depth mem, drop_left]
          have shorter : rest.length < n := by
            have some_ : 0 < label.length := length_pos_iff.mpr (edges.nonempty _ mem)
            rw [← size, length_append]
            omega
          refine (ih rest.length shorter (goods _ mem) rest (depth + 1) rfl).imp_right ?_
          rintro ⟨v, holds⟩
          exact ⟨v, .child mem holds⟩

end Lookups

end Monitor.Radix
