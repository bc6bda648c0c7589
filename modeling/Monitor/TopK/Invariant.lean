import Monitor.TopK.Processor

/-! # The representation invariant of the Top-K processor

Each operation is described once, by `Rebuilt`: the result is linked again, it retains the
stated collection of entries, it announces the stated hosts, and nothing else has changed.
That much holds whatever the comparison of values does, since the sifting loops only
rearrange (`Shuffled`). Over a linear order the result is heap-ordered again as well
(`Became`). Whole runs then keep `Represents`, the invariant in the terms of the data
structure itself.
-/

namespace Monitor.TopK

open MinHeap List Function

variable {Host κ : Type}

/-- What an item is about, without its place in the heap. -/
structure Entry (Host κ : Type) where
  hostId : Host
  value : κ
  timestamp : Int
  updateCount : Int32
  deriving DecidableEq, Repr

def Item.entry (item : Item Host κ) : Entry Host κ :=
  ⟨item.hostId, item.value, item.timestamp, item.updateCount⟩

/-- How a collection of at most `k` entries takes in one pair: which entries it holds before and
    after, and which host had to go. -/
inductive Takes [LinearOrder κ] (k : Int) (hostId : Host) (value : κ) (time : Int) :
    Multiset (Entry Host κ) → Multiset (Entry Host κ) → List Host → Prop
  | update {old rest} (same : old.hostId = hostId) :
      Takes k hostId value time (old ::ₘ rest)
        (⟨hostId, value, time, old.updateCount + 1⟩ ::ₘ rest) []
  | insert {held} (fresh : ∀ e ∈ held, e.hostId ≠ hostId) (room : held.card < k) :
      Takes k hostId value time held (⟨hostId, value, time, 1⟩ ::ₘ held) []
  | evict {least rest} (fresh : ∀ e ∈ least ::ₘ rest, e.hostId ≠ hostId)
      (full : k ≤ (least ::ₘ rest).card) (isLeast : ∀ e ∈ rest, least.value ≤ e.value)
      (larger : least.value < value) :
      Takes k hostId value time (least ::ₘ rest) (⟨hostId, value, time, 1⟩ ::ₘ rest)
        [least.hostId]
  | discard {held} (fresh : ∀ e ∈ held, e.hostId ≠ hostId) (full : k ≤ held.card)
      (notLarger : ∀ e ∈ held, value ≤ e.value) :
      Takes k hostId value time held held []

variable {hostId : Host}

theorem Takes.card_le [LinearOrder κ] {k : Int} {value : κ} {time : Int}
    {held after : Multiset (Entry Host κ)} {gone : List Host}
    (h : Takes k hostId value time held after gone) (bounded : held.card ≤ k) : after.card ≤ k := by
  cases h with
  | update same => simpa only [Multiset.card_cons] using bounded
  | insert fresh room =>
    rw [Multiset.card_cons]
    omega
  | evict fresh full isLeast larger => simpa only [Multiset.card_cons] using bounded
  | discard fresh full notLarger => exact bounded

namespace Processor

def contents (p : Processor Host κ) : Multiset (Entry Host κ) := p.minHeap.map Item.entry

theorem card_contents (p : Processor Host κ) : p.contents.card = p.minHeap.length := by
  simp only [contents, Multiset.coe_card, length_map]

def hosts (p : Processor Host κ) : List Host := p.minHeap.map Item.hostId

theorem contents_hosts (p : Processor Host κ) : p.contents.map Entry.hostId = ↑p.hosts := by
  rw [contents, Multiset.map_coe, map_map]
  rfl

/-- The index fields and the map agree with the positions. -/
structure Linked (p : Processor Host κ) : Prop where
  inverse : Inverse p.hosts p.itemMap
  indexed : ∀ (i : Nat) item, p.minHeap[i]? = some item → item.index = i

theorem Linked.distinct {p : Processor Host κ} (h : Linked p) :
    (p.contents.map Entry.hostId).Nodup := by
  rw [contents_hosts]
  exact h.inverse.nodup

variable {i : Nat} {q : Processor Host κ}

theorem indexed_set {heap : List (Item Host κ)} {item : Item Host κ}
    (h : ∀ (j : Nat) x, heap[j]? = some x → x.index = j) :
    ∀ (j : Nat) x, (heap.set i { item with index := i })[j]? = some x → x.index = j := by
  intro j x found
  rw [getElem?_set] at found
  split at found
  · rename_i here
    split at found
    · cases found
      exact congrArg Nat.cast here
    · cases found
  · exact h j x found

theorem linked_nil (p : Processor Host κ) (empty : p.minHeap = [])
    (cleared : ∀ hostId, p.itemMap hostId = none) : Linked p where
  inverse := by
    intro hostId i
    simp [hosts, empty, cleared]
  indexed := by
    intro i item found
    simp [empty] at found

/-- A rearrangement of the heap that keeps the links. -/
structure Shuffled (p q : Processor Host κ) : Prop where
  linked : Linked p → Linked q
  contents : q.contents = p.contents
  frame : q = { p with minHeap := q.minHeap, itemMap := q.itemMap }

theorem Shuffled.refl (p : Processor Host κ) : Shuffled p p := ⟨id, rfl, rfl⟩

theorem Shuffled.trans {p r : Processor Host κ} (first : Shuffled p q) (second : Shuffled q r) :
    Shuffled p r where
  linked := fun linked => second.linked (first.linked linked)
  contents := second.contents.trans first.contents
  frame := by rw [second.frame, first.frame]

theorem Shuffled.length {p : Processor Host κ} (h : Shuffled p q) :
    q.minHeap.length = p.minHeap.length := by
  rw [← card_contents, ← card_contents, h.contents]

/-- The calls of the expire callback for one host that leaves. -/
def announced (p : Processor Host κ) (hostId : Host) : List Host :=
  if p.expireCallback then [hostId] else []

theorem triggerExpireCallback_eq (p : Processor Host κ) (hostId : Host) :
    p.triggerExpireCallback hostId = { p with expired := p.expired ++ p.announced hostId } := by
  simp only [triggerExpireCallback, announced]
  split
  · rfl
  · rw [append_nil]

theorem entries_set (heap : List (Item Host κ)) (lt : i < heap.length) (item : Item Host κ) :
    ((heap.set i item).map Item.entry : Multiset (Entry Host κ)) =
      item.entry ::ₘ ↑((heap.eraseIdx i).map Item.entry) := by
  have split_ := getElem_cons_eraseIdx_perm (l := heap.set i item) (n := i) (by simpa using lt)
  rw [getElem_set_self, eraseIdx_set_eq] at split_
  exact Multiset.coe_eq_coe.mpr (split_.map Item.entry).symm

theorem valueAt_congr {p : Processor Host κ} {j : Nat}
    (same : p.minHeap[i]? = q.minHeap[j]?) : p.valueAt i = q.valueAt j :=
  congrArg (Option.map Item.value) same

theorem shape_of_root {p : Processor Host κ} {root : Item Host κ}
    (top : p.minHeap[0]? = some root) : ∃ rest, p.minHeap = root :: rest := by
  cases heap : p.minHeap with
  | nil =>
    rw [heap] at top
    cases top
  | cons first rest =>
    rw [heap] at top
    cases top
    exact ⟨rest, rfl⟩

theorem contents_cons {p : Processor Host κ} {root : Item Host κ} {rest : List (Item Host κ)}
    (shape : p.minHeap = root :: rest) : p.contents = root.entry ::ₘ ↑(rest.map Item.entry) := by
  rw [contents, shape, map_cons, Multiset.cons_coe]

theorem contents_eraseIdx {p : Processor Host κ} {item : Item Host κ} (found : p.minHeap[i]? = some item) :
    p.contents = item.entry ::ₘ ↑((p.minHeap.eraseIdx i).map Item.entry) := by
  obtain ⟨lt, rfl⟩ := List.getElem?_eq_some_iff.mp found
  have := entries_set p.minHeap lt p.minHeap[i]
  rwa [set_getElem_self] at this

theorem entries_concat (rest : List (Item Host κ)) (last : Item Host κ) :
    (last.entry ::ₘ ↑(rest.map Item.entry) : Multiset (Entry Host κ)) =
      ↑((rest ++ [last]).map Item.entry) := by
  rw [Multiset.cons_coe, Multiset.coe_eq_coe, map_append]
  exact (perm_append_singleton _ _).symm

theorem Linked.fresh {p : Processor Host κ} (h : Linked p)
    (absent : p.itemMap hostId = none) : ∀ e ∈ p.contents, e.hostId ≠ hostId := by
  intro e mem same
  simp only [contents, Multiset.mem_coe, mem_map] at mem
  obtain ⟨item, lt, rfl⟩ := mem
  exact h.inverse.not_mem.mp absent (mem_map.mpr ⟨item, lt, same⟩)

theorem Linked.lookup {p : Processor Host κ} (h : Linked p)
    (known : p.itemMap hostId = some i) : ∃ item, p.minHeap[i]? = some item ∧ item.hostId = hostId := by
  have found := (h.inverse hostId i).mp known
  simpa only [hosts, getElem?_map, Option.map_eq_some_iff] using found

/-- What an operation made of a processor, whatever the order of its values: the entries it
    retains and the hosts it announced. -/
structure Rebuilt (p q : Processor Host κ) (entries : Multiset (Entry Host κ))
    (announced : List Host) : Prop where
  linked : Linked q
  contents : q.contents = entries
  expired : q.expired = p.expired ++ announced
  frame : q = { p with minHeap := q.minHeap, itemMap := q.itemMap, expired := q.expired }

variable {announced : List Host}

theorem Rebuilt.of_shuffled {p p' : Processor Host κ}
    (linked : Linked p') (expired : p'.expired = p.expired ++ announced)
    (frame : p' = { p with minHeap := p'.minHeap, itemMap := p'.itemMap, expired := p'.expired })
    (shuffled : Shuffled p' q) : Rebuilt p q p'.contents announced where
  linked := shuffled.linked linked
  contents := shuffled.contents
  expired := by rw [shuffled.frame, expired]
  frame := by
    rw [shuffled.frame]
    rw [frame]

variable {entries : Multiset (Entry Host κ)}

theorem Rebuilt.announce {p : Processor Host κ}
    (h : Rebuilt p q entries []) (hostId : Host) :
    Rebuilt p (q.triggerExpireCallback hostId) entries (p.announced hostId) := by
  have callback : q.expireCallback = p.expireCallback := by rw [h.frame]
  rw [triggerExpireCallback_eq]
  refine ⟨⟨h.linked.inverse, h.linked.indexed⟩, h.contents, ?_, ?_⟩
  · simp only [announced, callback, h.expired, append_nil]
  · rw [h.frame]

theorem foldl_announce (items : List (Item Host κ)) (p : Processor Host κ) :
    items.foldl (fun p item => p.triggerExpireCallback item.hostId) p =
      { p with expired := p.expired ++ (items.map Item.hostId).flatMap p.announced } := by
  induction items generalizing p with
  | nil => simp
  | cons item items ih =>
    rw [foldl_cons, ih, triggerExpireCallback_eq, map_cons, flatMap_cons, append_assoc]
    rfl

theorem dropAll_rebuilt (p : Processor Host κ) :
    Rebuilt p p.dropAll 0 (p.hosts.flatMap p.announced) := by
  simp only [dropAll, foldl_announce]
  exact ⟨linked_nil _ rfl (fun _ => rfl), rfl, rfl, rfl⟩

/-- Some item at the root, followed by a part of the old heap. -/
def headed (p : Processor Host κ) (item : Item Host κ) (kept : List (Item Host κ))
    (itemMap : Host → Option Nat) (announced : List Host) : Processor Host κ :=
  { p with
    minHeap := { item with index := 0 } :: kept
    itemMap := itemMap
    expired := p.expired ++ announced }

variable {itemMap : Host → Option Nat}

theorem headed_linked {p : Processor Host κ} {root item : Item Host κ}
    {rest kept : List (Item Host κ)}
    (h : Linked p) (shape : p.minHeap = root :: rest) (initial : kept <+: rest)
    (inverse : Inverse (item.hostId :: kept.map Item.hostId) itemMap) :
    Linked (p.headed item kept itemMap announced) := by
  obtain ⟨dropped, rfl⟩ := initial
  refine ⟨inverse, ?_⟩
  intro i x found
  cases i with
  | zero =>
    cases found
    rfl
  | succ i =>
    apply h.indexed (i + 1) x
    simp only [headed, getElem?_cons_succ] at found
    rw [shape, getElem?_cons_succ, getElem?_append_left (List.getElem?_eq_some_iff.mp found).1, found]

variable [DecidableEq Host]

theorem exchange_shuffled (p : Processor Host κ) (i j : Nat) (hi : i < p.minHeap.length)
    (hj : j < p.minHeap.length) (apart : i ≠ j) : Shuffled p (p.exchange i j) := by
  have shape : p.exchange i j = (p.put i p.minHeap[j]).put j p.minHeap[i] := by
    simp only [exchange, getElem?_eq_getElem hi, getElem?_eq_getElem hj]
  rw [shape]
  refine ⟨fun linked => ⟨?_, indexed_set (indexed_set linked.indexed)⟩, ?_, rfl⟩
  · have := linked.inverse.exchange apart (a := p.minHeap[i].hostId) (b := p.minHeap[j].hostId)
      (by simp [hosts, hi]) (by simp [hosts, hj])
    simpa only [hosts, put, map_set] using this
  · have swapped := @List.set_set_perm _ (p.minHeap.map Item.entry) i j
      (by simpa using hi) (by simpa using hj)
    simpa [contents, put, map_set, Item.entry] using swapped

variable {kept : List (Item Host κ)}

section Links

variable [LT κ] [DecidableLT κ] {p : Processor Host κ} {root item last : Item Host κ}
  {rest : List (Item Host κ)}

theorem heapifyUp_shuffled (p : Processor Host κ) (i : Nat) (lt : i < p.minHeap.length) :
    Shuffled p (p.heapifyUp i) :=
  (store Host κ).siftUp_keeps
    (fun q a b ha hb apart before => before.trans (exchange_shuffled q a b ha hb apart))
    i p i lt (.refl p)

theorem heapifyDown_shuffled (p : Processor Host κ) (i : Nat) : Shuffled p (p.heapifyDown i) :=
  (store Host κ).siftDown_keeps
    (fun q a b ha hb apart before => before.trans (exchange_shuffled q a b ha hb apart))
    p.minHeap.length p i (.refl p)

/-- The heap with the item at a position updated, before it is sifted. -/
def updated (p : Processor Host κ) (i : Nat) (item : Item Host κ) (value : κ) (now : Int) :
    Processor Host κ :=
  { p with
    minHeap := p.minHeap.set i
      { item with
        value := value, timestamp := seconds now, index := i, updateCount := item.updateCount + 1 } }

theorem updateItem_eq (h : Linked p) {i : Nat} (found : p.minHeap[i]? = some item) (value : κ)
    (now : Int) :
    p.updateItem i value now = ((p.updated i item value now).heapifyDown i).heapifyUp i := by
  have same : item.index = i := h.indexed i item found
  simp only [updateItem, updated, modify_eq_set_getElem?, found, ← same]
  rfl

theorem updateItem_rebuilt (h : Linked p) {i : Nat} (found : p.minHeap[i]? = some item)
    (value : κ) (now : Int) : Rebuilt p (p.updateItem i value now)
      (⟨item.hostId, value, seconds now, item.updateCount + 1⟩ ::ₘ
        ↑((p.minHeap.eraseIdx i).map Item.entry)) [] := by
  obtain ⟨lt, here⟩ := List.getElem?_eq_some_iff.mp found
  have linked : Linked (p.updated i item value now) := by
    refine ⟨?_, ?_⟩
    · have unchanged : (p.updated i item value now).hosts = p.hosts := by
        simp only [hosts, updated, map_set]
        rw [← here, ← getElem_map Item.hostId (h := by simpa using lt)]
        exact set_getElem_self _
      rw [unchanged]
      exact h.inverse
    · exact @indexed_set _ _ i p.minHeap
        ⟨item.hostId, value, seconds now, item.index, item.updateCount + 1⟩ h.indexed
  have down := heapifyDown_shuffled (p.updated i item value now) i
  have up := heapifyUp_shuffled ((p.updated i item value now).heapifyDown i) i
    (by rwa [down.length, updated, length_set])
  have rebuilt := Rebuilt.of_shuffled (p := p) linked (append_nil _).symm rfl (down.trans up)
  rw [updateItem_eq h found]
  rwa [show (p.updated i item value now).contents = _ from entries_set p.minHeap lt _]
    at rebuilt

/-- The heap with an item behind the last, before it is sifted. -/
def pushed (p : Processor Host κ) (item : Item Host κ) : Processor Host κ :=
  { p with
    minHeap := p.minHeap ++ [{ item with index := p.minHeap.length }]
    itemMap := update p.itemMap item.hostId (some p.minHeap.length) }

theorem pushItem_rebuilt (h : Linked p) (fresh : p.itemMap item.hostId = none) :
    Rebuilt p (p.pushItem item) (item.entry ::ₘ p.contents) [] := by
  have linked : Linked (p.pushed item) := by
    constructor
    · have := h.inverse.append fresh
      simpa only [hosts, pushed, map_append, map_cons, map_nil, length_map]
        using this
    · intro i x found
      simp only [pushed, getElem?_append] at found
      split at found
      · exact h.indexed i x found
      · obtain ⟨bound, rfl⟩ := List.getElem?_eq_some_iff.mp found
        simp only [length_singleton] at bound
        simp only [getElem_singleton]
        omega
  have grown : (p.pushed item).contents = item.entry ::ₘ p.contents := by
    simp only [contents, pushed, map_append, map_cons, map_nil, Multiset.cons_coe, Multiset.coe_eq_coe]
    exact perm_append_singleton _ _
  have rebuilt := Rebuilt.of_shuffled (p := p) linked (append_nil _).symm rfl
    (heapifyUp_shuffled (p.pushed item) p.minHeap.length (by simp [pushed]))
  rwa [grown] at rebuilt

/-- The common end of the three ways to lose the root: some item, followed by a part of the heap
    behind the root, replaces it and is sifted down. -/
theorem headed_rebuilt (h : Linked p) (shape : p.minHeap = root :: rest) (announced : List Host)
    (initial : kept <+: rest) (inverse : Inverse (item.hostId :: kept.map Item.hostId) itemMap) :
    Rebuilt p ((p.headed item kept itemMap announced).heapifyDown 0)
      (item.entry ::ₘ ↑(kept.map Item.entry)) announced :=
  Rebuilt.of_shuffled (p := p) (headed_linked h shape initial inverse) rfl rfl
    (heapifyDown_shuffled _ 0)

theorem replaceRoot_eq (shape : p.minHeap = root :: rest) : p.replaceRoot root item =
      (p.headed item rest (update (update p.itemMap root.hostId none) item.hostId (some 0))
        (p.announced root.hostId)).heapifyDown 0 := by
  simp only [replaceRoot, triggerExpireCallback_eq, forget, put, shape, set_cons_zero, announced]
  rfl

theorem replaceRoot_rebuilt (h : Linked p) (shape : p.minHeap = root :: rest)
    (fresh : p.itemMap item.hostId = none) :
    Rebuilt p (p.replaceRoot root item) (item.entry ::ₘ ↑(rest.map Item.entry))
      (p.announced root.hostId) := by
  have front : p.hosts[0]? = some root.hostId := by simp [hosts, shape]
  have inverse := h.inverse.replace front fresh
  simp only [hosts, shape, map_cons, set_cons_zero] at inverse
  rw [replaceRoot_eq shape]
  exact headed_rebuilt h shape _ prefix_rfl inverse

/-- The map once the last item has taken the root's position. -/
def promotedMap (p : Processor Host κ) (root last : Item Host κ) : Host → Option Nat :=
  update (update p.itemMap root.hostId none) last.hostId (some 0)

omit [LT κ] [DecidableLT κ] in
theorem moveLastToRoot_eq (shape : p.minHeap = root :: (rest ++ [last])) :
    (p.forget root.hostId).moveLastToRoot = { p with
        minHeap := { last with index := 0 } :: rest, itemMap := p.promotedMap root last } := by
  have back : (p.forget root.hostId).minHeap.getLast? = some last := by
    simp only [forget, shape, ← cons_append, getLast?_concat]
  simp only [moveLastToRoot, back]
  simp only [put, forget, shape, set_cons_zero]
  rw [← cons_append, dropLast_concat]
  rfl

omit [LT κ] [DecidableLT κ] in
theorem promoted_inverse (h : Linked p) (shape : p.minHeap = root :: (rest ++ [last])) :
    Inverse (last.hostId :: rest.map Item.hostId) (p.promotedMap root last) := by
  have spelled : p.hosts = root.hostId :: (rest.map Item.hostId ++ [last.hostId]) := by
    simp only [hosts, shape, map_cons, map_append, map_nil]
  have front : p.hosts[0]? = some root.hostId := by simp [spelled]
  have back : p.hosts.getLast? = some last.hostId := by
    rw [spelled, ← cons_append, getLast?_concat]
  have := h.inverse.promoteLast (by simp [spelled]) front back
  rwa [spelled, set_cons_zero, ← cons_append, dropLast_concat] at this

theorem dropRoot_eq (shape : p.minHeap = root :: (rest ++ [last])) : p.dropRoot root =
      (p.headed last rest (p.promotedMap root last) (p.announced root.hostId)).heapifyDown 0 := by
  simp only [dropRoot, moveLastToRoot_eq shape, triggerExpireCallback_eq, announced, headed]

theorem dropRoot_rebuilt (h : Linked p) (shape : p.minHeap = root :: rest) (long : rest ≠ []) :
    Rebuilt p (p.dropRoot root) ↑(rest.map Item.entry) (p.announced root.hostId) := by
  obtain ⟨rest, last, rfl⟩ := (eq_nil_or_concat rest).resolve_left long
  rw [concat_eq_append] at shape ⊢
  rw [← entries_concat, dropRoot_eq shape]
  exact headed_rebuilt h shape _ (prefix_append _ _) (promoted_inverse h shape)

theorem dropExpired_single (shape : p.minHeap = [root]) : p.dropExpired root =
      { p.forget root.hostId with minHeap := [] }.triggerExpireCallback root.hostId := by
  rw [dropExpired, if_neg (by simp [forget, shape])]
  simp only [forget, shape, dropLast_singleton]

theorem dropExpired_eq (shape : p.minHeap = root :: (rest ++ [last])) : p.dropExpired root =
      ((p.headed last rest (p.promotedMap root last) []).heapifyDown 0).triggerExpireCallback
        root.hostId := by
  rw [dropExpired, if_pos (by simp [forget, shape]), moveLastToRoot_eq shape]
  simp only [headed, append_nil]

theorem dropExpired_rebuilt (h : Linked p) (shape : p.minHeap = root :: rest) :
    Rebuilt p (p.dropExpired root) ↑(rest.map Item.entry) (p.announced root.hostId) := by
  rcases eq_nil_or_concat rest with rfl | ⟨rest, last, rfl⟩
  · rw [dropExpired_single shape]
    apply Rebuilt.announce
    refine ⟨linked_nil _ rfl ?_, rfl, (append_nil _).symm, rfl⟩
    intro hostId
    simp only [forget, update_apply]
    split
    · rfl
    · rename_i other
      rw [h.inverse.not_mem]
      simpa [hosts, shape] using other
  · rw [concat_eq_append] at shape ⊢
    rw [dropExpired_eq shape, ← entries_concat]
    apply Rebuilt.announce
    exact headed_rebuilt h shape _ (prefix_append _ _) (promoted_inverse h shape)

/-- The outcomes of the decision for one pair. -/
inductive Offered (now : Int) (p : Processor Host κ) (hostId : Host) (value : κ) :
    Processor Host κ → Prop
  | update {i : Nat} {item : Item Host κ} (found : p.minHeap[i]? = some item)
      (same : item.hostId = hostId) : Offered now p hostId value (p.updateItem i value now)
  | push (absent : p.itemMap hostId = none) (room : p.minHeap.length < p.k) :
      Offered now p hostId value (p.pushItem ⟨hostId, value, seconds now, -1, 1⟩)
  | replace {root : Item Host κ} {rest : List (Item Host κ)} (absent : p.itemMap hostId = none)
      (full : p.k ≤ p.minHeap.length) (shape : p.minHeap = root :: rest)
      (larger : root.value < value) :
      Offered now p hostId value (p.replaceRoot root ⟨hostId, value, seconds now, -1, 1⟩)
  | discard (absent : p.itemMap hostId = none) (full : p.k ≤ p.minHeap.length)
      (notLarger : ∀ root, p.minHeap[0]? = some root → ¬ root.value < value) :
      Offered now p hostId value p

theorem offer_offered (h : Linked p) (now : Int) (hostId : Host) (value : κ) :
    Offered now p hostId value (offer now p hostId value) := by
  simp only [offer]
  cases known : p.itemMap hostId with
  | some i =>
    obtain ⟨item, found, same⟩ := h.lookup known
    exact .update found same
  | none =>
    by_cases room : p.minHeap.length < p.k
    · simp only [if_pos room]
      exact .push known room
    · simp only [if_neg room]
      have full := not_lt.mp room
      cases top : p.minHeap[0]? with
      | none => exact .discard known full (fun root there => by rw [top] at there; cases there)
      | some root =>
        obtain ⟨rest, shape⟩ := shape_of_root top
        by_cases larger : root.value < value
        · simp only [if_pos larger]
          exact .replace known full shape larger
        · simp only [if_neg larger]
          refine .discard known full (fun first there => ?_)
          rw [top] at there
          cases there
          exact larger

end Links

variable [LinearOrder κ]

structure Valid (p : Processor Host κ) : Prop where
  linked : Linked p
  ordered : Ordered p.valueAt p.minHeap.length

omit [DecidableEq Host] in
theorem Valid.root_le {p : Processor Host κ} {root item : Item Host κ} (h : Valid p)
    (top : p.minHeap[0]? = some root) (mem : item ∈ p.minHeap) : root.value ≤ item.value := by
  obtain ⟨i, found⟩ := mem_iff_getElem?.mp mem
  have lt := (List.getElem?_eq_some_iff.mp found).1
  have least := h.ordered.root_le i lt
  simp only [valueAt, top, found] at least
  exact WithTop.coe_le_coe.mp least

omit [DecidableEq Host] in
theorem Valid.least {p : Processor Host κ} {root : Item Host κ} (h : Valid p)
    (top : p.minHeap[0]? = some root) : ∀ e ∈ p.contents, root.value ≤ e.value := by
  intro e mem
  simp only [contents, Multiset.mem_coe, mem_map] at mem
  obtain ⟨item, lt, rfl⟩ := mem
  exact h.root_le top lt

/-- What an operation made of a processor: the entries it retains and the hosts it announced. -/
structure Became (p q : Processor Host κ) (entries : Multiset (Entry Host κ))
    (announced : List Host) : Prop where
  valid : Valid q
  contents : q.contents = entries
  expired : q.expired = p.expired ++ announced
  frame : q = { p with minHeap := q.minHeap, itemMap := q.itemMap, expired := q.expired }

omit [DecidableEq Host] in
theorem Rebuilt.became {p : Processor Host κ} (h : Rebuilt p q entries announced)
    (ordered : Ordered q.valueAt q.minHeap.length) : Became p q entries announced :=
  ⟨⟨h.linked, ordered⟩, h.contents, h.expired, h.frame⟩

variable {p : Processor Host κ} {root item last : Item Host κ} {rest : List (Item Host κ)}

theorem updateItem_became (h : Valid p) (found : p.minHeap[i]? = some item) (value : κ) (now : Int) :
    Became p (p.updateItem i value now) (⟨item.hostId, value, seconds now, item.updateCount + 1⟩ ::ₘ
        ↑((p.minHeap.eraseIdx i).map Item.entry)) [] := by
  apply (updateItem_rebuilt h.linked found value now).became
  have lt := (List.getElem?_eq_some_iff.mp found).1
  have except : ExceptAt (p.updated i item value now).valueAt
      (p.updated i item value now).minHeap.length i := by
    apply h.ordered.exceptAt
    intro c below apart
    simp only [updated, length_set] at below
    exact ⟨below, valueAt_congr (getElem?_set_ne (Ne.symm apart))⟩
  rw [updateItem_eq h.linked found]
  exact (store Host κ).siftUp_siftDown_ordered le_rfl (Nat.le_add_left _ _)
    (by simpa only [store, updated, length_set] using lt) except

theorem pushItem_became (h : Valid p) (fresh : p.itemMap item.hostId = none) :
    Became p (p.pushItem item) (item.entry ::ₘ p.contents) [] := by
  apply (pushItem_rebuilt h.linked fresh).became
  have size : (p.pushed item).minHeap.length = p.minHeap.length + 1 := by
    simp only [pushed, length_append, length_singleton]
  have except : ExceptAt (p.pushed item).valueAt (p.pushed item).minHeap.length
      p.minHeap.length := by
    apply h.ordered.exceptAt
    intro c below apart
    have lt : c < p.minHeap.length := by omega
    exact ⟨lt, valueAt_congr (getElem?_append_left lt)⟩
  have leaf : UpReady (p.pushed item).valueAt (p.pushed item).minHeap.length
      p.minHeap.length := by
    refine ⟨except, ?_⟩
    intro c pos below child
    have := parent_lt pos
    omega
  exact (store Host κ).siftUp_ordered p.minHeap.length (p.pushed item) p.minHeap.length le_rfl
    (by simp only [store, size]; omega) leaf

theorem headed_ordered (h : Ordered p.valueAt p.minHeap.length)
    (shape : p.minHeap = root :: rest) (initial : kept <+: rest)
    (itemMap : Host → Option Nat) (announced : List Host) :
    Ordered ((p.headed item kept itemMap announced).heapifyDown 0).valueAt
      ((p.headed item kept itemMap announced).heapifyDown 0).minHeap.length := by
  obtain ⟨dropped, rfl⟩ := initial
  have except : ExceptAt (p.headed item kept itemMap announced).valueAt
      (p.headed item kept itemMap announced).minHeap.length 0 := by
    apply h.exceptAt
    intro c below apart
    obtain ⟨c, rfl⟩ := Nat.exists_eq_succ_of_ne_zero apart
    simp only [headed, length_cons, Nat.succ_eq_add_one, Nat.add_lt_add_iff_right] at below
    refine ⟨?_, valueAt_congr ?_⟩
    · simp only [shape, length_cons, length_append]
      omega
    · simp only [headed, shape, getElem?_cons_succ, getElem?_append_left below]
  exact (store Host κ).siftDown_ordered _ _ 0 (Nat.le_add_left _ _)
    ⟨except, fun pos => absurd pos (Nat.lt_irrefl 0)⟩

theorem replaceRoot_became (h : Valid p) (shape : p.minHeap = root :: rest)
    (fresh : p.itemMap item.hostId = none) :
    Became p (p.replaceRoot root item) (item.entry ::ₘ ↑(rest.map Item.entry))
      (p.announced root.hostId) := by
  apply (replaceRoot_rebuilt h.linked shape fresh).became
  rw [replaceRoot_eq shape]
  exact headed_ordered h.ordered shape prefix_rfl _ _

theorem dropRoot_became (h : Valid p) (shape : p.minHeap = root :: rest) (long : rest ≠ []) :
    Became p (p.dropRoot root) ↑(rest.map Item.entry) (p.announced root.hostId) := by
  apply (dropRoot_rebuilt h.linked shape long).became
  obtain ⟨rest, last, rfl⟩ := (eq_nil_or_concat rest).resolve_left long
  rw [concat_eq_append] at shape
  rw [dropRoot_eq shape]
  exact headed_ordered h.ordered shape (prefix_append _ _) _ _

omit [DecidableEq Host] in
theorem ordered_announce (h : Ordered p.valueAt p.minHeap.length) (hostId : Host) :
    Ordered (p.triggerExpireCallback hostId).valueAt
      (p.triggerExpireCallback hostId).minHeap.length := by
  rw [triggerExpireCallback_eq]
  exact h

theorem dropExpired_became (h : Valid p) (shape : p.minHeap = root :: rest) :
    Became p (p.dropExpired root) ↑(rest.map Item.entry) (p.announced root.hostId) := by
  apply (dropExpired_rebuilt h.linked shape).became
  rcases eq_nil_or_concat rest with rfl | ⟨rest, last, rfl⟩
  · rw [dropExpired_single shape]
    apply ordered_announce
    intro c _ lt
    cases lt
  · rw [concat_eq_append] at shape
    rw [dropExpired_eq shape]
    exact ordered_announce (headed_ordered h.ordered shape (prefix_append _ _) _ _) _

structure Sound (p : Processor Host κ) : Prop extends Valid p where
  positive : 0 < p.k
  bounded : p.minHeap.length ≤ p.k

omit [DecidableEq Host] in
theorem Became.sound
    {hosts : List Host} (h : Became p q entries hosts) (positive : 0 < p.k)
    (bounded : entries.card ≤ p.k) : Sound q where
  toValid := h.valid
  positive := by rwa [h.frame]
  bounded := by
    rw [← card_contents, h.contents, h.frame]
    exact bounded

theorem dropExpired_length (h : Valid p) (shape : p.minHeap = root :: rest) :
    (p.dropExpired root).minHeap.length = rest.length := by
  rw [← card_contents, (dropExpired_became h shape).contents, Multiset.coe_card, length_map]

theorem dropExpired_sound (h : Sound p) (shape : p.minHeap = root :: rest) :
    Sound (p.dropExpired root) := by
  apply (dropExpired_became h.toValid shape).sound h.positive
  have bounded := h.bounded
  rw [shape, length_cons] at bounded
  rw [Multiset.coe_card, length_map]
  omega

theorem cleanupLoop_sound (expireTime : Int) :
    ∀ fuel (p : Processor Host κ), Sound p → Sound (cleanupLoop expireTime fuel p) := by
  intro fuel
  induction fuel with
  | zero => exact fun _ sound => sound
  | succ fuel ih =>
    intro p sound
    simp only [cleanupLoop]
    split
    · exact sound
    · rename_i root top
      split
      · obtain ⟨rest, shape⟩ := shape_of_root top
        exact ih _ (dropExpired_sound sound shape)
      · exact sound

theorem offer_takes (h : Sound p) (now : Int) (hostId : Host) (value : κ) :
    ∃ after gone, Became p (offer now p hostId value) after (gone.flatMap p.announced) ∧
      Takes p.k hostId value (seconds now) p.contents after gone := by
  have offered := offer_offered h.linked now hostId value
  generalize offer now p hostId value = q at offered ⊢
  cases offered with
  | update found same =>
    refine ⟨_, [], updateItem_became h.toValid found value now, ?_⟩
    rw [contents_eraseIdx found, same]
    exact .update same
  | push absent room =>
    refine ⟨_, [], pushItem_became h.toValid absent, .insert (h.linked.fresh absent) ?_⟩
    rwa [card_contents]
  | @replace root rest absent full shape larger =>
    have fresh := h.linked.fresh absent
    have least := h.least (show p.minHeap[0]? = some root by rw [shape, getElem?_cons_zero])
    rw [← card_contents] at full
    rw [contents_cons shape] at fresh full least ⊢
    refine ⟨_, [root.hostId], ?_, .evict fresh full ?_ larger⟩
    · rw [flatMap_singleton]
      exact replaceRoot_became h.toValid shape absent
    · exact fun e mem => least e (Multiset.mem_cons_of_mem mem)
  | discard absent full notLarger =>
    have fresh := h.linked.fresh absent
    refine ⟨_, [], ⟨h.toValid, rfl, (append_nil _).symm, rfl⟩, .discard fresh ?_ ?_⟩
    · rwa [card_contents]
    · intro e mem
      cases top : p.minHeap[0]? with
      | none =>
        have empty := List.getElem?_eq_none_iff.mp top
        have positive := h.positive
        omega
      | some root => exact (not_lt.mp (notLarger root top)).trans (h.least top e mem)

theorem offer_sound (h : Sound p) (now : Int) (hostId : Host) (value : κ) :
    Sound (offer now p hostId value) := by
  obtain ⟨after, gone, became, takes⟩ := offer_takes h now hostId value
  apply became.sound h.positive
  apply takes.card_le
  rw [card_contents]
  exact h.bounded

theorem foldl_offer_sound (now : Int) : ∀ (items : List (Host × κ)) (p : Processor Host κ), Sound p →
      Sound (items.foldl (fun p item => offer now p item.1 item.2) p) := by
  intro items
  induction items with
  | nil => exact fun _ sound => sound
  | cons item items ih => exact fun p sound => ih _ (offer_sound sound now item.1 item.2)

omit [DecidableEq Host] in
theorem Sound.transport (h : Sound p) (sameHeap : q.minHeap = p.minHeap)
    (sameMap : q.itemMap = p.itemMap) (sameK : q.k = p.k) : Sound q := by
  obtain ⟨⟨⟨inverse, indexed⟩, ordered⟩, positive, bounded⟩ := h
  cases p
  cases q
  simp only at sameHeap sameMap sameK
  subst sameHeap sameMap sameK
  exact ⟨⟨⟨inverse, indexed⟩, ordered⟩, positive, bounded⟩

theorem shrinkLoop_sound :
    ∀ (fuel : Nat) (p : Processor Host κ), Valid p → 0 < p.k → p.minHeap.length ≤ p.k + fuel →
      Sound (shrinkLoop fuel p) := by
  intro fuel
  induction fuel with
  | zero =>
    intro p valid positive bounded
    rw [Nat.cast_zero, add_zero] at bounded
    exact ⟨valid, positive, bounded⟩
  | succ fuel ih =>
    intro p valid positive bounded
    simp only [shrinkLoop]
    split
    · rename_i long
      cases top : p.minHeap[0]? with
      | none =>
        have empty := List.getElem?_eq_none_iff.mp top
        omega
      | some root =>
        obtain ⟨rest, shape⟩ := shape_of_root top
        rw [shape, length_cons] at long bounded
        have more : rest ≠ [] := by
          rintro rfl
          simp only [length_nil, Nat.zero_add, Nat.cast_one] at long
          omega
        have became := dropRoot_became valid shape more
        have sameK : (p.dropRoot root).k = p.k := by rw [became.frame]
        have length : (p.dropRoot root).minHeap.length = rest.length := by
          rw [← card_contents, became.contents, Multiset.coe_card, length_map]
        apply ih _ became.valid
        · rwa [sameK]
        · omega
    · rename_i short
      exact ⟨valid, positive, not_lt.mp short⟩

omit [DecidableEq Host] in
theorem dropAll_became (p : Processor Host κ) : Became p p.dropAll 0 (p.hosts.flatMap p.announced) := by
  apply (dropAll_rebuilt p).became
  intro c _ lt
  cases lt

omit [DecidableEq Host] in
theorem dropAll_sound (h : Sound p) : Sound p.dropAll :=
  (dropAll_became p).sound h.positive (by simpa using h.positive.le)

theorem step_sound (h : Sound p) (op : Op Host κ) : Sound (p.step op) := by
  cases op with
  | processStream now hostId value =>
    simp only [step, processStream]
    split
    · exact h
    · apply offer_sound
      apply cleanupLoop_sound
      exact h.transport rfl rfl rfl
  | processStreamBatch now items =>
    simp only [step, processStreamBatch]
    split
    · exact h
    · apply foldl_offer_sound
      apply cleanupLoop_sound
      exact h.transport rfl rfl rfl
  | setK k =>
    simp only [step, setK]
    split
    · exact h
    · rename_i accepted
      have positive : 0 < k := not_le.mp fun small => accepted (.inr small)
      apply shrinkLoop_sound
      · exact ⟨⟨h.linked.inverse, h.linked.indexed⟩, h.ordered⟩
      · exact positive
      · exact Int.le_add_of_nonneg_left positive.le
  | setTtl seconds =>
    simp only [step, setTtl]
    split
    · exact h
    · exact h.transport rfl rfl rfl
  | setExpireCallback callback => exact h.transport rfl rfl rfl
  | clear | close =>
    simp only [step, clear, close]
    split
    · exact h
    · exact (dropAll_sound h).transport rfl rfl rfl

omit [DecidableEq Host] in
theorem new_sound {k : Int} (positive : 0 < k) (ttlSeconds now : Int) :
    Sound (new k ttlSeconds now : Processor Host κ) where
  linked := linked_nil _ rfl (fun _ => rfl)
  ordered := by
    intro c _ lt
    cases lt
  positive := positive
  bounded := positive.le

theorem run_sound (h : Sound p) (ops : List (Op Host κ)) : Sound (p.run ops) := by
  induction ops generalizing p with
  | nil => exact h
  | cons op ops ih => exact ih (step_sound h op)

/-- The representation invariant in the terms of the heap array and the map. -/
structure Represents (p : Processor Host κ) : Prop where
  heap : ∀ (i : Nat) item up, 0 < i → p.minHeap[i]? = some item →
    p.minHeap[(i - 1) / 2]? = some up → up.value ≤ item.value
  bounded : p.minHeap.length ≤ p.k
  distinct : (p.minHeap.map Item.hostId).Nodup
  indexed : ∀ (i : Nat) item, p.minHeap[i]? = some item → item.index = i
  mapped : ∀ hostId (i : Nat), p.itemMap hostId = some i ↔
    ∃ item, p.minHeap[i]? = some item ∧ item.hostId = hostId

omit [DecidableEq Host] in
theorem Sound.represents (h : Sound p) : Represents p where
  heap := by
    intro i item up pos found above
    have lt := (List.getElem?_eq_some_iff.mp found).1
    have order := h.ordered i pos lt
    simp only [valueAt, parent, found, above] at order
    exact WithTop.coe_le_coe.mp order
  bounded := h.bounded
  distinct := h.linked.inverse.nodup
  indexed := h.linked.indexed
  mapped := by
    intro hostId i
    rw [h.linked.inverse hostId i]
    simp only [hosts, getElem?_map, Option.map_eq_some_iff]

/-- After every sequence of calls at arbitrary clock readings, the heap, its index fields and the
    map agree. -/
theorem run_represents {k : Int} (positive : 0 < k) (ttlSeconds now : Int)
    (ops : List (Op Host κ)) :
    Represents ((new k ttlSeconds now : Processor Host κ).run ops) :=
  (run_sound (new_sound positive ttlSeconds now) ops).represents

theorem run_represents_two :
    Represents ((new 2 60 0 : Processor Nat Nat).run
      [.processStream 1000000000 1 5, .processStreamBatch 2000000000 [(2, 7), (1, 9), (3, 8)],
        .setK 1, .processStream 90000000000 4 1]) :=
  run_represents (by decide) 60 0 _

end Processor

end Monitor.TopK
