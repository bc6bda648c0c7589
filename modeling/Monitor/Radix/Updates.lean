import Monitor.Radix.Shape

/-! # What insertions and deletions do to a tree in good shape

An insertion below a node adds its key, as long as the key does not begin another key
that the node holds; a deletion removes its key and prunes every node that has become
useless. Both keep the shape.
-/

namespace Monitor.Radix

open GoText List GoMap

variable {V : Type} {children : List (GoString × Node V)}

variable {key own : GoString}

section Replacing

variable {child : Node V} {label : GoString}

theorem insertBelow_eq (order : Order) (value : Option V) (depth : Nat) (key : GoString)
    (found : get label children = some child) : insertBelow order value depth label key children =
      set label (insertNode order value (depth + 1) key child) children := by
  induction children with
  | nil => cases found
  | cons e children ih =>
    rw [get_cons] at found
    rw [insertBelow, GoMap.set]
    split at found
    · rename_i same
      cases found
      rw [if_pos same, if_pos same, same]
    · rename_i other
      rw [if_neg other, if_neg other, ih found]

theorem deleteBelow_eq (edges : Edges children) (order : Order) (depth : Nat)
    (mem : (label, child) ∈ children) (key : GoString) : deleteBelow order depth label key children =
      let result := deleteNode order (depth + 1) key child
      (if result.2 = true ∧ result.1.children.length = 0 ∧ ¬ result.1.isLeaf then
        erase label children else
        set label result.1 children, result.2) := by
  induction children with
  | nil => cases mem
  | cons first children ih =>
    obtain ⟨l, c⟩ := first
    simp only [deleteBelow, GoMap.set]
    rcases mem_cons.mp mem with same | later
    · cases same
      have gone : erase label ((label, child) :: children) = children := by
        have kept : children.filter (·.1 ≠ label) = children :=
          filter_eq_self.mpr fun e mem => by simpa using edges.label_ne mem
        simpa [erase] using kept
      simp only [if_true, gone]
      split <;> rfl
    · have other : l ≠ label := (edges.label_ne later).symm
      have kept : erase label ((l, c) :: children) = (l, c) :: erase label children := by
        simp [erase, other]
      simp only [if_neg other, ih edges.tail later, kept]
      split <;> rfl

variable {value : Option V} {isLeaf : Bool}

theorem holds_setChild_iff (edges : Edges children) (label : GoString) (child : Node V) {v : Option V} :
    Holds (.mk own value isLeaf (set label child children)) key v ↔
      (key = [] ∧ isLeaf = true ∧ v = value) ∨ (∃ rest, key = label ++ rest ∧ Holds child rest v) ∨
      ∃ e ∈ children, e.1 ≠ label ∧ ∃ rest, key = e.1 ++ rest ∧ Holds e.2 rest v := by
  rw [holds_mk_iff]
  refine or_congr_right ⟨?_, ?_⟩
  · rintro ⟨e, mem, rest, same, holds⟩
    rcases (mem_setChild edges label child e).mp mem with rfl | ⟨old, other⟩
    · exact .inl ⟨rest, same, holds⟩
    · exact .inr ⟨e, old, other, rest, same, holds⟩
  · rintro (⟨rest, same, holds⟩ | ⟨e, old, other, rest, same, holds⟩)
    · exact ⟨_, (mem_setChild edges label child _).mpr (.inl rfl), rest, same, holds⟩
    · exact ⟨e, (mem_setChild edges label child e).mpr (.inr ⟨old, other⟩), rest, same, holds⟩

theorem good_setChild (good : Good (.mk own value isLeaf children))
    (some_ : label ≠ []) (apart : ∀ e ∈ children, e.1.head? = label.head? → e.1 = label)
    (goodChild : Good child) (alive : Alive child) :
    Good (.mk own value isLeaf (set label child children)) := by
  cases good with
  | mk edges goods alives =>
    refine .mk (edges_setChild edges some_ apart child) ?_ ?_
    · intro e mem
      rcases (mem_setChild edges label child e).mp mem with rfl | ⟨old, _⟩
      · exact goodChild
      · exact goods e old
    · intro e mem
      rcases (mem_setChild edges label child e).mp mem with rfl | ⟨old, _⟩
      · exact alive
      · exact alives e old

theorem good_eraseChild (good : Good (.mk own value isLeaf children)) (label : GoString) :
    Good (.mk own value isLeaf (erase label children)) := by
  cases good with
  | mk edges goods alives =>
    exact .mk (edges_eraseChild edges label) (fun e mem => goods e (mem_erase.mp mem).1)
      fun e mem => alives e (mem_erase.mp mem).1

end Replacing

section Insertion

variable (order : Order) (value : Option V)

structure Inserted (value : Option V) (key : GoString) (t t' : Node V) : Prop where
  good : Good t'
  holds : ∀ k v, Holds t' k v ↔ (k = key ∧ v = value) ∨ Holds t k v

section

variable {old : Option V} {isLeaf : Bool} (good : Good (.mk own old isLeaf children))
include good

theorem inserted_fresh (some_ : key ≠ []) (apart : ∀ e ∈ children, e.1.head? ≠ key.head?) :
    Inserted value key (.mk own old isLeaf children)
      (.mk own old isLeaf (set key (newLeaf key value) children)) where
  good := good_setChild good some_ (fun e mem same => absurd same (apart e mem))
    (newLeaf_good key value) (newLeaf_alive key value)
  holds := by
    intro k v
    cases good with
    | mk edges goods alives =>
      rw [holds_setChild_iff edges, holds_mk_iff]
      simp only [holds_newLeaf_iff]
      constructor
      · rintro (here | ⟨rest, rfl, rfl, rfl⟩ | ⟨e, mem, _, deeper⟩)
        · exact .inr (.inl here)
        · exact .inl ⟨append_nil key, rfl⟩
        · exact .inr (.inr ⟨e, mem, deeper⟩)
      · rintro (⟨rfl, rfl⟩ | here | ⟨e, mem, deeper⟩)
        · exact .inr (.inl ⟨[], (append_nil k).symm, rfl, rfl⟩)
        · exact .inl here
        · refine .inr (.inr ⟨e, mem, ?_, deeper⟩)
          intro same
          exact apart e mem (congrArg _ same)

theorem inserted_below {label k : GoString} {child child' : Node V} (mem : (label, child) ∈ children)
    (inserted : Inserted value k child child') : Inserted value (label ++ k) (.mk own old isLeaf children)
      (.mk own old isLeaf (set label child' children)) := by
  have whole := good
  cases good with
  | mk edges goods alives =>
    have sole : ∀ e ∈ children, e.1.head? = label.head? → e = (label, child) :=
      fun e edge same => edges.unique edge mem same
    refine ⟨good_setChild whole (edges.nonempty _ mem) ?_ inserted.good ⟨k, value, ?_⟩, fun key v => ?_⟩
    · exact fun e edge same => congrArg Prod.fst (sole e edge same)
    · exact (inserted.holds k value).mpr (.inl ⟨rfl, rfl⟩)
    · rw [holds_setChild_iff edges, holds_mk_iff]
      simp only [inserted.holds]
      constructor
      · rintro (here | ⟨r, rfl, ⟨rfl, rfl⟩ | holds⟩ | ⟨e, edge, _, deeper⟩)
        · exact .inr (.inl here)
        · exact .inl ⟨rfl, rfl⟩
        · exact .inr (.inr ⟨_, mem, r, rfl, holds⟩)
        · exact .inr (.inr ⟨e, edge, deeper⟩)
      · rintro (⟨rfl, rfl⟩ | here | ⟨e, edge, r, rfl, holds⟩)
        · exact .inr (.inl ⟨k, rfl, .inl ⟨rfl, rfl⟩⟩)
        · exact .inl here
        · by_cases same : e.1 = label
          · obtain rfl := sole e edge (congrArg _ same)
            exact .inr (.inl ⟨r, rfl, .inr holds⟩)
          · exact .inr (.inr ⟨e, edge, same, r, rfl, holds⟩)

theorem inserted_split {common l k : GoString} {child : Node V} (mem : (common ++ l, child) ∈ children)
    (shared : common ≠ []) (turned : l ≠ []) (further : k ≠ []) (apart : l.head? ≠ k.head?) :
    Inserted value (common ++ k) (.mk own old isLeaf children)
      (.mk own old isLeaf (set common (splitNode value common (common ++ l) (common ++ k) child)
        (erase (common ++ l) children))) := by
  have rest := good_eraseChild good (common ++ l)
  cases good with
  | mk edges goods alives =>
    have middle : splitNode value common (common ++ l) (common ++ k) child =
        .mk common none false [(l, child.setKey l), (k, newLeaf k value)] := by
      have other : l ≠ k := fun same => apart (congrArg _ same)
      simp [splitNode, GoMap.set, further, other]
    have goodMiddle : Good (.mk common (none : Option V) false [(l, child.setKey l), (k, newLeaf k value)]) := by
      refine .mk ⟨?_, ?_⟩ ?_ ?_
      · simp [turned, further]
      · simpa using apart
      · simpa using ⟨(goods _ mem).setKey l, newLeaf_good k value⟩
      · simpa using ⟨(alives _ mem).setKey l, newLeaf_alive k value⟩
    have holdsMiddle : ∀ key v,
        Holds (.mk common (none : Option V) false [(l, child.setKey l), (k, newLeaf k value)]) key v ↔
          (∃ r, key = l ++ r ∧ Holds child r v) ∨ key = k ∧ v = value := by
      intro key v
      simp [holds_mk_iff, holds_newLeaf_iff, holds_setKey_iff]
    have sole : ∀ e ∈ children, e.1.head? = common.head? → e = (common ++ l, child) := by
      intro e edge same
      refine edges.unique edge mem ?_
      rw [same, head?_append_of_ne_nil _ shared]
    rw [middle]
    refine ⟨good_setChild rest shared ?_ goodMiddle ⟨k, value, ?_⟩, fun key v => ?_⟩
    · intro e edge same
      obtain ⟨old, other⟩ := mem_erase.mp edge
      exact absurd (congrArg Prod.fst (sole e old same)) other
    · exact (holdsMiddle k value).mpr (.inr ⟨rfl, rfl⟩)
    · rw [holds_setChild_iff (edges_eraseChild edges _), holds_mk_iff]
      simp only [holdsMiddle, mem_erase]
      constructor
      · rintro (here | ⟨_, rfl, ⟨r, rfl, holds⟩ | ⟨rfl, rfl⟩⟩ | ⟨e, ⟨edge, _⟩, _, deeper⟩)
        · exact .inr (.inl here)
        · exact .inr (.inr ⟨_, mem, r, (append_assoc ..).symm, holds⟩)
        · exact .inl ⟨rfl, rfl⟩
        · exact .inr (.inr ⟨e, edge, deeper⟩)
      · rintro (⟨rfl, rfl⟩ | here | ⟨e, edge, r, rfl, holds⟩)
        · exact .inr (.inl ⟨k, rfl, .inr ⟨rfl, rfl⟩⟩)
        · exact .inl here
        · by_cases same : e.1.head? = common.head?
          · obtain rfl := sole e edge same
            exact .inr (.inl ⟨l ++ r, append_assoc .., .inl ⟨r, rfl, holds⟩⟩)
          · refine .inr (.inr ⟨e, ⟨edge, fun label => same ?_⟩, fun label => same ?_, r, rfl, holds⟩)
            · rw [label, head?_append_of_ne_nil _ shared]
            · rw [label]

end

theorem insertNode_spec {t : Node V} (good : Good t) (some_ : key ≠ [])
    (free : ∀ k v, Holds t k v → ¬ key <+: k) (depth : Nat) :
    Inserted value key t (insertNode order value depth key t) := by
  induction size : key.length using Nat.strong_induction_on generalizing t key depth with
  | _ n ih =>
    have whole := good
    cases good with
    | @mk own old isLeaf children edges goods alives =>
      rw [insertNode]
      by_cases fresh : ∀ e ∈ children, e.1.head? ≠ key.head?
      · have none_ : ∀ e ∈ children, decide (longestCommonPrefix e.1 key ≠ []) = false := by
          intro e mem
          simp only [longestCommonPrefix_ne_nil_iff, decide_eq_false_iff_not]
          exact fun shares => fresh e mem shares.2
        rw [find_no_label order depth none_]
        exact inserted_fresh value whole some_ fresh
      · push Not at fresh
        obtain ⟨⟨label, child⟩, mem, same⟩ := fresh
        have shared : longestCommonPrefix label key ≠ [] :=
          longestCommonPrefix_ne_nil_iff.mpr ⟨edges.nonempty _ mem, same⟩
        obtain ⟨l, k, front, back, apart⟩ := longestCommonPrefix_spec label key
        rw [edges.find_shares order depth mem same]
        simp only
        generalize longestCommonPrefix label key = common at *
        subst front back
        obtain ⟨k', v', alive⟩ := alives _ mem
        have held : Holds (.mk own old isLeaf children) (common ++ l ++ k') v' := .child mem alive
        by_cases turned : l = []
        · subst turned
          rw [append_nil] at mem held ⊢
          have rest : ∀ k' v, Holds child k' v → ¬ k <+: k' := by
            intro k' v holds begins
            exact free _ v (.child mem holds) ((prefix_append_right_inj common).mpr begins)
          have further : k ≠ [] := by
            rintro rfl
            exact rest k' v' alive (List.nil_prefix)
          have shorter : k.length < n := by
            have := length_pos_iff.mpr shared
            rw [← size, length_append]
            omega
          rw [if_pos rfl, insertBelow_eq order value depth _ (getChild_eq edges mem), drop_left]
          exact inserted_below value whole mem
            (ih k.length shorter (goods _ mem) further rest (depth + 1) rfl)
        · have further : k ≠ [] := by
            rintro rfl
            refine free _ v' held ?_
            rw [append_nil, append_assoc]
            exact prefix_append common _
          have different : common ≠ common ++ l := by simpa using turned
          have different' : common ≠ common ++ k := by simpa using further
          rw [if_neg different, getChild_eq edges mem]
          simp only [if_neg different']
          have heads : l.head? ≠ k.head? := by
            rcases apart with none_ | none_ | heads
            · exact absurd none_ turned
            · exact absurd none_ further
            · exact heads
          exact inserted_split value whole mem shared turned further heads

end Insertion

section Deletion

structure Deleted (key : GoString) (t t' : Node V) (found : Bool) : Prop where
  good : Good t'
  holds : ∀ k v, Holds t' k v ↔ k ≠ key ∧ Holds t k v
  found : found = true ↔ ∃ v, Holds t key v

variable {t : Node V}

theorem Good.alive (good : Good t) (useful : t.children.length ≠ 0 ∨ t.isLeaf = true) : Alive t := by
  cases good with
  | @mk own value isLeaf children edges goods alives =>
    rcases useful with some_ | leaf
    · obtain ⟨e, mem⟩ := exists_mem_of_length_pos (Nat.pos_of_ne_zero some_)
      obtain ⟨k, v, holds⟩ := alives e mem
      exact ⟨e.1 ++ k, v, .child mem holds⟩
    · subst leaf
      exact ⟨[], value, .leaf⟩

theorem not_holds_of_useless (none_ : t.children.length = 0) (notLeaf : ¬ t.isLeaf)
    (k : GoString) (v : Option V) : ¬ Holds t k v := by
  cases t with
  | mk own value isLeaf children =>
    change children.length = 0 at none_
    change ¬ isLeaf = true at notLeaf
    rw [holds_mk_iff, length_eq_zero_iff.mp none_]
    simp [notLeaf]

theorem Deleted.alive {t' : Node V} {found : Bool} (deleted : Deleted key t t' found)
    (alive : Alive t) (kept : ¬ (found = true ∧ t'.children.length = 0 ∧ ¬ t'.isLeaf)) : Alive t' := by
  cases found with
  | true =>
    refine deleted.good.alive ?_
    by_contra useless
    exact kept ⟨rfl, not_not.mp (not_or.mp useless).1, (not_or.mp useless).2⟩
  | false =>
    obtain ⟨k, v, holds⟩ := alive
    refine ⟨k, v, (deleted.holds k v).mpr ⟨?_, holds⟩⟩
    rintro rfl
    cases deleted.found.mpr ⟨v, holds⟩

variable {value : Option V} {isLeaf : Bool} {label rest : GoString} {child child' : Node V}
  {found : Bool}

theorem Edges.same_edge (edges : Edges children) {e e' : GoString × Node V} (mem : e ∈ children)
    (mem' : e' ∈ children) {r r' : GoString} (same : e.1 ++ r = e'.1 ++ r') : e = e' ∧ r = r' := by
  have heads := congrArg List.head? same
  rw [head?_append_of_ne_nil _ (edges.nonempty e mem),
    head?_append_of_ne_nil _ (edges.nonempty e' mem')] at heads
  obtain rfl := edges.unique mem mem' heads
  exact ⟨rfl, append_cancel_left same⟩

theorem deleted_below (edges : Edges children) (mem : (label, child) ∈ children)
    (deleted : Deleted rest child child' found) {t' : Node V} (good : Good t')
    (parts : ∀ k v, Holds t' k v ↔ (k = [] ∧ isLeaf = true ∧ v = value) ∨
      (∃ r, k = label ++ r ∧ Holds child' r v) ∨
      ∃ e ∈ children, e.1 ≠ label ∧ ∃ r, k = e.1 ++ r ∧ Holds e.2 r v) :
    Deleted (label ++ rest) (.mk own value isLeaf children) t' found where
  good := good
  holds := by
    intro k v
    rw [parts, holds_mk_iff]
    simp only [deleted.holds]
    constructor
    · rintro (⟨rfl, here⟩ | ⟨r, rfl, other, holds⟩ | ⟨e, edge, other, r, rfl, holds⟩)
      · refine ⟨fun empty => edges.nonempty _ mem ?_, .inl ⟨rfl, here⟩⟩
        exact (append_eq_nil_iff.mp empty.symm).1
      · exact ⟨fun same => other (append_cancel_left same), .inr ⟨_, mem, r, rfl, holds⟩⟩
      · refine ⟨fun same => other ?_, .inr ⟨e, edge, r, rfl, holds⟩⟩
        exact congrArg Prod.fst (edges.same_edge edge mem same).1
    · rintro ⟨ne, ⟨rfl, here⟩ | ⟨e, edge, r, rfl, holds⟩⟩
      · exact .inl ⟨rfl, here⟩
      · by_cases same : e.1 = label
        · obtain rfl := edges.unique edge mem (congrArg _ same)
          exact .inr (.inl ⟨r, rfl, fun equal => ne (equal ▸ rfl), holds⟩)
        · exact .inr (.inr ⟨e, edge, same, r, rfl, holds⟩)
  found := by
    rw [deleted.found]
    constructor
    · rintro ⟨v, holds⟩
      exact ⟨v, .child mem holds⟩
    · rintro ⟨v, holds⟩
      rcases holds_mk_iff.mp holds with ⟨empty, _⟩ | ⟨e, edge, r, same, deeper⟩
      · exact absurd (append_eq_nil_iff.mp empty).1 (edges.nonempty _ mem)
      · obtain ⟨rfl, rfl⟩ := edges.same_edge mem edge same
        exact ⟨v, deeper⟩

theorem deleteNode_spec (order : Order) (good : Good t) (key : GoString) (depth : Nat) :
    Deleted key t (deleteNode order depth key t).1 (deleteNode order depth key t).2 := by
  induction size : key.length using Nat.strong_induction_on generalizing t key depth with
  | _ n ih =>
    have whole := good
    cases good with
    | @mk own value isLeaf children edges goods alives =>
      have longer : ∀ k v, (∃ e ∈ children, ∃ r, k = e.1 ++ r ∧ Holds e.2 r v) → k ≠ [] := by
        rintro _ v ⟨e, mem, r, rfl, _⟩ empty
        exact edges.nonempty e mem (append_eq_nil_iff.mp empty).1
      rw [deleteNode]
      split
      · rename_i stop
        obtain ⟨rfl, rfl⟩ := stop
        refine ⟨.mk edges goods alives, fun k v => ?_, by simpa using ⟨value, .leaf⟩⟩
        rw [holds_mk_iff, holds_mk_iff]
        constructor
        · rintro (⟨_, leaf, _⟩ | deeper)
          · cases leaf
          · exact ⟨longer k v deeper, .inr deeper⟩
        · rintro ⟨ne, ⟨empty, _⟩ | deeper⟩
          · exact absurd empty ne
          · exact .inr deeper
      · rename_i goOn
        split
        · rename_i none_
          have absent : ∀ v, ¬ Holds (.mk own value isLeaf children) key v := by
            intro v holds
            rcases holds_mk_iff.mp holds with ⟨empty, leaf, _⟩ | ⟨e, mem, r, rfl, _⟩
            · exact goOn ⟨empty, leaf⟩
            · rw [edges.find_begins order depth mem] at none_
              cases none_
          refine ⟨whole, fun k v => ⟨fun holds => ⟨?_, holds⟩, fun holds => holds.2⟩, ?_⟩
          · rintro rfl
            exact absent v holds
          · simpa using absent
        · rename_i label found
          obtain ⟨child, mem, begins⟩ := found_label found
          obtain ⟨rest, rfl⟩ := List.isPrefixOf_iff_prefix.mp begins
          have shorter : rest.length < n := by
            have some_ : 0 < label.length := length_pos_iff.mpr (edges.nonempty _ mem)
            rw [← size, length_append]
            omega
          have deeper := ih rest.length shorter (goods _ mem) rest (depth + 1) rfl
          simp only [deleteBelow_eq edges order depth mem, drop_left]
          split
          · rename_i pruned
            refine deleted_below edges mem deeper (good_eraseChild whole label) fun k v => ?_
            have dead := not_holds_of_useless pruned.2.1 pruned.2.2
            simp only [holds_mk_iff, mem_erase, dead, and_false, exists_false, false_or,
              and_assoc]
          · rename_i kept
            refine deleted_below edges mem deeper ?_ fun k v => holds_setChild_iff edges label _
            refine good_setChild whole (edges.nonempty _ mem) ?_ deeper.good
              (deeper.alive (alives _ mem) kept)
            exact fun e edge same => congrArg Prod.fst (edges.unique edge mem same)

end Deletion

end Monitor.Radix
