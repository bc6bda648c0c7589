import Monitor.TopK.Expiry

/-! # A batch against its elements one by one

`process_stream_batch` expires old items once, `process_stream` before every element. The two
agree on every list as long as no decision ever brings an expired item to the root, since then
`cleanup_expired` finds nothing to do. That never happens only if the expired items, where
there are any, have a value that nothing exceeds.
-/

namespace Monitor.TopK

open MinHeap List

variable {Host κ : Type}

section Collection

variable [LinearOrder κ] {k time : Int} {hostId : Host} {value : κ}
  {held after : Multiset (Entry Host κ)} {gone : List Host} {e : Entry Host κ}

section

variable (takes : Takes k hostId value time held after gone)
include takes

theorem Takes.keeps (mem : e ∈ held)
    (other : e.hostId ≠ hostId) (notLarger : value ≤ e.value) : e ∈ after := by
  cases takes with
  | update same =>
    rcases Multiset.mem_cons.mp mem with rfl | mem
    · exact absurd same other
    · exact Multiset.mem_cons_of_mem mem
  | insert fresh room => exact Multiset.mem_cons_of_mem mem
  | evict fresh full isLeast larger =>
    rcases Multiset.mem_cons.mp mem with rfl | mem
    · exact absurd notLarger (not_le.mpr larger)
    · exact Multiset.mem_cons_of_mem mem
  | discard fresh full lower => exact mem

theorem Takes.update_keeps
    (known : hostId ∈ held.map Entry.hostId) (mem : e ∈ held) (other : e.hostId ≠ hostId) :
    e ∈ after := by
  obtain ⟨old, lt, same⟩ := Multiset.mem_map.mp known
  cases takes with
  | update _ =>
    rcases Multiset.mem_cons.mp mem with rfl | mem
    · contradiction
    · exact Multiset.mem_cons_of_mem mem
  | insert fresh | evict fresh | discard fresh => exact absurd same (fresh old lt)

theorem Takes.update_hosts (known : hostId ∈ held.map Entry.hostId) :
    after.map Entry.hostId = held.map Entry.hostId := by
  obtain ⟨old, lt, same⟩ := Multiset.mem_map.mp known
  cases takes with
  | update same => rw [Multiset.map_cons, Multiset.map_cons, same]
  | insert fresh | evict fresh | discard fresh => exact absurd same (fresh old lt)

theorem Takes.card_ge : held.card ≤ after.card := by
  cases takes <;> simp

end

end Collection

namespace Processor

variable [DecidableEq Host]

section Restamp

theorem exchange_restamp (updateCount : Int64) (lastUpdate : Int) (p : Processor Host κ) (i j : Nat) :
    (p.restamp updateCount lastUpdate).exchange i j =
      (p.exchange i j).restamp updateCount lastUpdate := by
  simp only [exchange, restamp]
  split <;> rfl

omit [DecidableEq Host] in
theorem triggerExpireCallback_restamp (p : Processor Host κ) (updateCount : Int64)
    (lastUpdate : Int) (hostId : Host) :
    (p.restamp updateCount lastUpdate).triggerExpireCallback hostId =
      (p.triggerExpireCallback hostId).restamp updateCount lastUpdate := by
  rw [triggerExpireCallback_eq, triggerExpireCallback_eq]
  rfl

variable [LT κ] [DecidableLT κ]

section

variable (p : Processor Host κ) (updateCount : Int64) (lastUpdate : Int) (i : Nat)

theorem heapifyUp_restamp : (p.restamp updateCount lastUpdate).heapifyUp i =
      (p.heapifyUp i).restamp updateCount lastUpdate :=
  (store Host κ).siftUp_comm (f := fun p => p.restamp updateCount lastUpdate)
    (fun _ _ => rfl) (exchange_restamp updateCount lastUpdate) i p i

theorem heapifyDown_restamp : (p.restamp updateCount lastUpdate).heapifyDown i =
      (p.heapifyDown i).restamp updateCount lastUpdate :=
  (store Host κ).siftDown_comm (f := fun p => p.restamp updateCount lastUpdate)
    (fun _ => rfl) (fun _ _ => rfl) (exchange_restamp updateCount lastUpdate) p.minHeap.length p i

theorem updateItem_restamp (value : κ) (now : Int) :
    (p.restamp updateCount lastUpdate).updateItem i value now =
      (p.updateItem i value now).restamp updateCount lastUpdate := by
  simp only [updateItem]
  rw [← heapifyUp_restamp, ← heapifyDown_restamp]
  rfl

theorem pushItem_restamp (item : Item Host κ) : (p.restamp updateCount lastUpdate).pushItem item =
      (p.pushItem item).restamp updateCount lastUpdate := by
  simp only [pushItem]
  rw [← heapifyUp_restamp]
  rfl

theorem replaceRoot_restamp (root item : Item Host κ) :
    (p.restamp updateCount lastUpdate).replaceRoot root item =
      (p.replaceRoot root item).restamp updateCount lastUpdate := by
  simp only [replaceRoot]
  rw [← heapifyDown_restamp, ← triggerExpireCallback_restamp]
  rfl

end

theorem offer_restamp (now : Int) (p : Processor Host κ) (updateCount : Int64) (lastUpdate : Int)
    (hostId : Host) (value : κ) : offer now (p.restamp updateCount lastUpdate) hostId value =
      (offer now p hostId value).restamp updateCount lastUpdate := by
  have sameMap : (p.restamp updateCount lastUpdate).itemMap = p.itemMap := rfl
  have sameHeap : (p.restamp updateCount lastUpdate).minHeap = p.minHeap := rfl
  have sameK : (p.restamp updateCount lastUpdate).k = p.k := rfl
  simp only [offer, sameMap, sameHeap, sameK, updateItem_restamp, pushItem_restamp, replaceRoot_restamp]
  cases p.itemMap hostId with
  | some i => rfl
  | none =>
    dsimp only
    split
    · rfl
    · cases p.minHeap[0]? with
      | none => rfl
      | some root =>
        dsimp only
        split <;> rfl

end Restamp

variable [LinearOrder κ] {p q : Processor Host κ}

theorem offers_restamp (now : Int) (p : Processor Host κ) (updateCount : Int64) (lastUpdate : Int)
    (items : List (Host × κ)) : offers now (p.restamp updateCount lastUpdate) items =
      (offers now p items).restamp updateCount lastUpdate := by
  induction items generalizing p with
  | nil => rfl
  | cons item items ih =>
    rw [offers_cons, offer_restamp]
    exact ih _

theorem offers_sound (now : Int) (sound : Sound p) (items : List (Host × κ)) :
    Sound (offers now p items) :=
  foldl_offer_sound now items p sound

/-- The host, value and timestamp of everything retained. -/
def retained (p : Processor Host κ) : Set (Host × κ × Int) :=
  { kept | ∃ item ∈ p.minHeap, kept = (item.hostId, item.value, item.timestamp) }

omit [DecidableEq Host] [LinearOrder κ] in
theorem mem_retained {hostId : Host} {value : κ} {timestamp : Int} :
    (hostId, value, timestamp) ∈ p.retained ↔
      ∃ e ∈ p.contents, e.hostId = hostId ∧ e.value = value ∧ e.timestamp = timestamp := by
  constructor
  · rintro ⟨item, lt, same⟩
    cases same
    exact ⟨item.entry, mem_contents.mpr ⟨item, lt, rfl⟩, rfl, rfl, rfl⟩
  · rintro ⟨e, mem, rfl, rfl, rfl⟩
    obtain ⟨item, lt, rfl⟩ := mem_contents.mp mem
    exact ⟨item, lt, rfl⟩

/-- `process_stream` on one element after the other, all at one instant. -/
def processEach (now : Int) (p : Processor Host κ) (items : List (Host × κ)) : Processor Host κ :=
  items.foldl (fun p item => p.processStream now item.1 item.2) p

/-- No decisions at this instant bring an expired item to the root. -/
def Steady (now : Int) (p : Processor Host κ) : Prop :=
  ∀ items, RootFresh (p.expireTime now) (offers now p items)

theorem offers_expireTime (sound : Sound p) (now : Int) (items : List (Host × κ)) :
    (offers now p items).expireTime now = p.expireTime now := by
  rw [offers_framed sound now items]
  rfl

theorem offer_closed (sound : Sound p) (now : Int) (hostId : Host) (value : κ) :
    (offer now p hostId value).closed = p.closed := by
  have framed := offers_framed sound now [(hostId, value)]
  rw [offers_cons, offers_nil] at framed
  rw [framed]

variable {now : Int}

theorem cleanupExpired_restamp (fresh : RootFresh (p.expireTime now) p)
    (updateCount : Int64) (lastUpdate : Int) :
    (p.restamp updateCount lastUpdate).cleanupExpired now = p.restamp updateCount lastUpdate :=
  cleanupExpired_of_rootFresh (p := p.restamp updateCount lastUpdate) fresh

theorem processStream_of_rootFresh (running : p.closed = false)
    (fresh : RootFresh (p.expireTime now) p) (hostId : Host) (value : κ) :
    p.processStream now hostId value = (offer now p hostId value).restamp (p.updateCount + 1) now := by
  rw [processStream_eq running, cleanupExpired_restamp fresh, offers_restamp]
  rfl

theorem processStreamBatch_of_rootFresh (running : p.closed = false)
    (fresh : RootFresh (p.expireTime now) p) (items : List (Host × κ)) :
    p.processStreamBatch now items =
      (offers now p items).restamp (p.updateCount + Int64.ofNat items.length) now := by
  rw [processStreamBatch_eq running, cleanupExpired_restamp fresh, offers_restamp]

theorem Steady.offer (steady : Steady now p) (sound : Sound p) (updateCount : Int64)
    (hostId : Host) (value : κ) : Steady now ((offer now p hostId value).restamp updateCount now) := by
  intro items
  have time := offers_expireTime sound now [(hostId, value)]
  rw [offers_restamp]
  have later := steady ((hostId, value) :: items)
  rw [← time] at later
  exact later

variable (items : List (Host × κ))

theorem Steady.processEach :
    ∀ {p : Processor Host κ}, Steady now p → Sound p → p.closed = false →
      (p.processEach now items).retained = (offers now p items).retained := by
  induction items with
  | nil => exact fun _ _ _ => rfl
  | cons item items ih =>
    intro p steady sound running
    have first := processStream_of_rootFresh running (steady []) item.1 item.2
    have next := (offer_sound sound now item.1 item.2).restamp (p.updateCount + 1) now
    have rest := ih (steady.offer sound (p.updateCount + 1) item.1 item.2) next
      ((offer_closed sound now item.1 item.2).trans running)
    rw [offers_restamp] at rest
    simp only [Processor.processEach, foldl_cons, first] at rest ⊢
    exact rest

theorem cleanupExpired_root (sound : Sound p) {root : Item Host κ}
    (top : p.minHeap[0]? = some root) (old : root.timestamp < p.expireTime now) :
    ∀ e ∈ (p.cleanupExpired now).contents, e.hostId ≠ root.hostId := by
  obtain ⟨rest, shape⟩ := shape_of_root top
  have cleaned := cleanupLoop_cleaned (p.expireTime now) rest.length
    (dropExpired_sound sound shape) (dropExpired_length sound.toValid shape).le
  have next : p.cleanupExpired now =
      cleanupLoop (p.expireTime now) rest.length (p.dropExpired root) := by
    unfold cleanupExpired
    simp only [shape, length_cons, cleanupLoop, getElem?_cons_zero]
    exact if_pos old
  obtain ⟨dropped, parts, _⟩ := cleaned.parts
  rw [(dropExpired_became sound.toValid shape).contents] at parts
  have distinct := sound.linked.distinct
  rw [contents_cons shape, Multiset.map_cons, Multiset.nodup_cons, parts] at distinct
  intro e mem same
  rw [next] at mem
  exact distinct.1 (Multiset.mem_map.mpr ⟨e, Multiset.mem_add.mpr (.inl mem), same⟩)

/-- If the decisions on their own and with expiry in between retain the same, whatever is
    offered, the root is not expired. -/
theorem rootFresh_of_same [Nontrivial Host] (sound : Sound p) (running : p.closed = false)
    (same : ∀ items, (offers now p items).retained = (p.processEach now items).retained) :
    RootFresh (p.expireTime now) p := by
  intro root top
  by_contra old
  obtain ⟨rest, shape⟩ := shape_of_root top
  obtain ⟨other, apart⟩ := exists_ne root.hostId
  obtain ⟨after, gone, became, takes⟩ := offer_takes sound now other root.value
  -- Offering a value no larger than the root's leaves the root where it is.
  have stays : (root.hostId, root.value, root.timestamp) ∈
      (offers now p [(other, root.value)]).retained := by
    rw [mem_retained]
    refine ⟨root.entry, ?_, rfl, rfl, rfl⟩
    rw [offers_cons, offers_nil, became.contents]
    apply takes.keeps _ (Ne.symm apart) le_rfl
    rw [contents_cons shape]
    exact Multiset.mem_cons_self _ _
  rw [same] at stays
  have start := sound.restamp (p.updateCount + 1) now
  obtain ⟨e, mem, host, _⟩ := mem_retained.mp stays
  rw [processEach, foldl_cons, foldl_nil, processStream_eq running] at mem
  rcases offer_origin (cleanupExpired_cleaned start now).sound mem with
    ⟨isOther, _⟩ | ⟨before, _⟩
  · exact apart (isOther.symm.trans host)
  · exact cleanupExpired_root start top (not_le.mp old) e before host

theorem steady_of_same [Nontrivial Host] :
    ∀ {p : Processor Host κ}, Sound p → p.closed = false →
      (∀ items, (offers now p items).retained = (p.processEach now items).retained) →
      RootFresh (p.expireTime now) (offers now p items) := by
  induction items with
  | nil => exact fun sound running same => rootFresh_of_same sound running same
  | cons item items ih =>
    intro p sound running same
    have fresh := rootFresh_of_same sound running same
    have next := (offer_sound sound now item.1 item.2).restamp (p.updateCount + 1) now
    have later := ih next ((offer_closed sound now item.1 item.2).trans running) (by
      intro more
      rw [offers_restamp]
      have all := same (item :: more)
      rw [processEach, foldl_cons, processStream_of_rootFresh running fresh] at all
      exact all)
    rw [offers_restamp] at later
    have time := offers_expireTime sound now [item]
    rw [← time]
    exact later

omit [DecidableEq Host] in
theorem valueAt_le_of_isMax (maximal : ∀ e ∈ p.contents, IsMax e.value) {i j : Nat}
    (hi : i < p.minHeap.length) (hj : j < p.minHeap.length) : p.valueAt i ≤ p.valueAt j := by
  simp only [valueAt, getElem?_eq_getElem hi, getElem?_eq_getElem hj]
  have top := maximal _ (mem_contents.mpr ⟨p.minHeap[j], getElem_mem hj, rfl⟩)
  exact WithTop.coe_le_coe.mpr (top.isTop _)

theorem heapifyDown_of_isMax (maximal : ∀ e ∈ p.contents, IsMax e.value) (i : Nat) :
    p.heapifyDown i = p := by
  apply (store Host κ).siftDown_of_least
  intro c pos lt child
  have below := parent_lt pos
  simp only [store] at lt
  exact valueAt_le_of_isMax maximal (by omega) lt

theorem heapifyUp_of_isMax (maximal : ∀ e ∈ p.contents, IsMax e.value) {i : Nat}
    (lt : i < p.minHeap.length) : p.heapifyUp i = p := by
  cases i with
  | zero => rfl
  | succ i =>
    have below : parent (i + 1) < i + 1 := parent_lt (Nat.succ_pos i)
    have stop := valueAt_le_of_isMax maximal (below.trans lt) lt
    exact if_neg (not_lt.mpr stop)

theorem offer_rootFresh_of_isMax {expireTime : Int} (linked : Linked p)
    (fresh : RootFresh expireTime p) (young : expireTime ≤ seconds now) (hostId : Host) (value : κ)
    (maximal : ∀ e ∈ (offer now p hostId value).contents, IsMax e.value) :
    RootFresh expireTime (offer now p hostId value) := by
  have offered := offer_offered linked now hostId value
  generalize offer now p hostId value = q at offered maximal ⊢
  cases offered with
  | @update i item found same =>
    obtain ⟨lt, _⟩ := List.getElem?_eq_some_iff.mp found
    have size : (p.updated i item value now).minHeap.length = p.minHeap.length := by
      rw [updated, length_set]
    have down := heapifyDown_shuffled (p.updated i item value now) i
    have up := heapifyUp_shuffled ((p.updated i item value now).heapifyDown i) i
      (by rwa [down.length, size])
    rw [updateItem_eq linked found, (down.trans up).contents] at maximal
    rw [updateItem_eq linked found, heapifyDown_of_isMax maximal,
      heapifyUp_of_isMax maximal (size ▸ lt)]
    intro root top
    simp only [updated, getElem?_set] at top
    split at top
    · cases top
      exact young
    · exact fresh root top
  | push absent room =>
    have size : p.minHeap.length <
        (p.pushed ⟨hostId, value, seconds now, -1, 1⟩).minHeap.length := by
      simp [pushed]
    have up := heapifyUp_shuffled (p.pushed ⟨hostId, value, seconds now, -1, 1⟩)
      p.minHeap.length size
    have same : p.pushItem ⟨hostId, value, seconds now, -1, 1⟩ =
        (p.pushed ⟨hostId, value, seconds now, -1, 1⟩).heapifyUp p.minHeap.length := rfl
    rw [same, up.contents] at maximal
    rw [same, heapifyUp_of_isMax maximal size]
    intro root top
    cases heap : p.minHeap with
    | nil =>
      simp only [pushed, heap, nil_append, getElem?_cons_zero] at top
      cases top
      exact young
    | cons first rest =>
      simp only [pushed, heap, cons_append, getElem?_cons_zero] at top
      cases top
      exact fresh root (by rw [heap, getElem?_cons_zero])
  | replace absent full shape larger =>
    rw [replaceRoot_eq shape, (heapifyDown_shuffled _ 0).contents] at maximal
    rw [replaceRoot_eq shape, heapifyDown_of_isMax maximal]
    intro first here
    cases here
    exact young
  | discard absent full notLarger => exact fresh

theorem offer_rootFresh {expireTime : Int} (sound : Sound p) (fresh : RootFresh expireTime p)
    (young : expireTime ≤ seconds now)
    (maximal : ∀ e ∈ p.contents, e.timestamp < expireTime → IsMax e.value) (hostId : Host)
    (value : κ) : RootFresh expireTime (offer now p hostId value) := by
  intro root top
  by_contra old
  obtain ⟨after, gone, became, takes⟩ := offer_takes sound now hostId value
  have mem : root.entry ∈ (offer now p hostId value).contents :=
    mem_contents.mpr ⟨root, mem_of_getElem? top, rfl⟩
  have expired : root.entry.timestamp < expireTime := not_le.mp old
  have isMax : IsMax root.value := by
    rcases offer_origin sound mem with ⟨_, _, current⟩ | ⟨before, _⟩
    · omega
    · exact maximal _ before expired
  have all : ∀ e ∈ (offer now p hostId value).contents, IsMax e.value :=
    fun e lt => isMax.mono (became.valid.least top e lt)
  exact old (offer_rootFresh_of_isMax sound.linked fresh young hostId value all root top)

theorem offers_rootFresh {expireTime : Int} (young : expireTime ≤ seconds now) (items : List (Host × κ)) :
    ∀ {p : Processor Host κ}, Sound p → RootFresh expireTime p →
      (∀ e ∈ p.contents, e.timestamp < expireTime → IsMax e.value) →
      RootFresh expireTime (offers now p items) := by
  induction items with
  | nil => exact fun _ fresh _ => fresh
  | cons item items ih =>
    intro p sound fresh maximal
    apply ih (offer_sound sound now item.1 item.2)
      (offer_rootFresh sound fresh young maximal item.1 item.2)
    intro e mem expired
    rcases offer_origin sound mem with ⟨_, _, current⟩ | ⟨before, _⟩
    · omega
    · exact maximal e before expired

theorem offers_origin (now : Int) (value : κ) {e : Entry Host κ} (hosts : List Host) :
    ∀ {p : Processor Host κ}, Sound p →
      e ∈ (offers now p (hosts.map fun host => (host, value))).contents →
      (e.value = value ∧ e.timestamp = seconds now) ∨ (e ∈ p.contents ∧ e.hostId ∉ hosts) := by
  induction hosts with
  | nil => exact fun _ mem => .inr ⟨mem, not_mem_nil⟩
  | cons host hosts ih =>
    intro p sound mem
    rcases ih (offer_sound sound now host value) mem with offered | ⟨before, other⟩
    · exact .inl offered
    · rcases offer_origin sound before with ⟨_, offered⟩ | ⟨before, apart⟩
      · exact .inl offered
      · exact .inr ⟨before, by simp [apart, other]⟩

theorem offers_card (now : Int) (items : List (Host × κ)) : ∀ {p : Processor Host κ}, Sound p →
      p.contents.card ≤ (offers now p items).contents.card := by
  induction items with
  | nil => exact fun _ => le_rfl
  | cons item items ih =>
    intro p sound
    obtain ⟨after, gone, became, takes⟩ := offer_takes sound now item.1 item.2
    have first := takes.card_ge
    rw [← became.contents] at first
    exact first.trans (ih (offer_sound sound now item.1 item.2))

theorem offers_update_keeps (now : Int) (value : κ) {e : Entry Host κ} (hosts : List Host) :
    ∀ {p : Processor Host κ}, Sound p → (∀ host ∈ hosts, host ∈ p.contents.map Entry.hostId) →
      e ∈ p.contents → e.hostId ∉ hosts →
      e ∈ (offers now p (hosts.map fun host => (host, value))).contents := by
  induction hosts with
  | nil => exact fun _ _ mem _ => mem
  | cons host hosts ih =>
    intro p sound known mem other
    rw [mem_cons, not_or] at other
    obtain ⟨after, gone, became, takes⟩ := offer_takes sound now host value
    have here := known host mem_cons_self
    apply ih (offer_sound sound now host value) _ _ other.2
    · intro host' later
      rw [became.contents, takes.update_hosts here]
      exact known host' (mem_cons_of_mem _ later)
    · rw [became.contents]
      exact takes.update_keeps here mem other.1

omit [DecidableEq Host] [LinearOrder κ] in
theorem exists_root {p : Processor Host κ} (some_ : 0 < p.contents.card) :
    ∃ root, p.minHeap[0]? = some root := by
  rw [card_contents] at some_
  exact ⟨_, getElem?_eq_getElem some_⟩

theorem Steady.ttl_nonneg [Nonempty Host] [Nonempty κ] (steady : Steady now p)
    (sound : Sound p) : 0 ≤ p.ttlSeconds := by
  by_contra negative
  obtain ⟨host⟩ := ‹Nonempty Host›
  obtain ⟨value⟩ := ‹Nonempty κ›
  have first : 0 < (Processor.offer now p host value).contents.card := by
    obtain ⟨after, gone, became, takes⟩ := offer_takes sound now host value
    rw [became.contents]
    by_cases empty : p.contents.card = 0
    · have room : (p.contents.card : Int) < p.k := by
        rw [empty]
        exact sound.positive
      obtain ⟨e, mem, _⟩ := takes.accepted (.inr room)
      exact Multiset.card_pos_iff_exists_mem.mpr ⟨e, mem⟩
    · exact (Nat.pos_of_ne_zero empty).trans_le takes.card_ge
  have later := offers_card now (p.hosts.map fun host => (host, value))
    (offer_sound sound now host value)
  obtain ⟨root, top⟩ := exists_root (first.trans_le later)
  have fresh := steady ((host :: p.hosts).map fun host => (host, value)) root top
  have mem : root.entry ∈
      (offers now p ((host :: p.hosts).map fun host => (host, value))).contents :=
    mem_contents.mpr ⟨root, mem_of_getElem? top, rfl⟩
  rcases offers_origin now value (host :: p.hosts) sound mem with ⟨_, current⟩ | ⟨before, other⟩
  · have same : root.timestamp = seconds now := current
    unfold expireTime at fresh
    omega
  · have known : root.entry.hostId ∈ p.contents.map Entry.hostId :=
      Multiset.mem_map_of_mem _ before
    rw [contents_hosts, Multiset.mem_coe] at known
    exact other (mem_cons_of_mem _ known)

theorem Steady.isMax (steady : Steady now p) (sound : Sound p) :
    ∀ item ∈ p.minHeap, item.timestamp < p.expireTime now → IsMax item.value := by
  intro item lt old value above
  by_contra notBelow
  let young := (p.minHeap.filter fun item => p.expireTime now ≤ item.timestamp).map Item.hostId
  have unique : ∀ e ∈ p.contents, ∀ f ∈ p.contents, e.hostId = f.hostId → e = f :=
    fun e inE f inF => Multiset.inj_on_of_nodup_map sound.linked.distinct e inE f inF
  have mem_young : ∀ e ∈ p.contents, e.hostId ∈ young ↔ p.expireTime now ≤ e.timestamp := by
    intro e mem
    simp only [young, mem_map, mem_filter, decide_eq_true_eq]
    constructor
    · rintro ⟨other, ⟨otherIn, fresh⟩, same⟩
      rw [← unique other.entry (mem_contents.mpr ⟨other, otherIn, rfl⟩) e mem same]
      exact fresh
    · intro fresh
      obtain ⟨other, otherIn, rfl⟩ := mem_contents.mp mem
      exact ⟨other, ⟨otherIn, fresh⟩, rfl⟩
  have known : ∀ host ∈ young, host ∈ p.contents.map Entry.hostId := by
    intro host mem
    simp only [young, mem_map, mem_filter] at mem
    obtain ⟨other, ⟨otherIn, _⟩, rfl⟩ := mem
    exact Multiset.mem_map.mpr ⟨other.entry, mem_contents.mpr ⟨other, otherIn, rfl⟩, rfl⟩
  have here : item.entry ∈ p.contents := mem_contents.mpr ⟨item, lt, rfl⟩
  have stays := offers_update_keeps now value young sound known here
    (fun isYoung => absurd old (not_lt.mpr ((mem_young _ here).mp isYoung)))
  have raised := offers_sound now sound (young.map fun host => (host, value))
  obtain ⟨root, top⟩ := exists_root (Multiset.card_pos_iff_exists_mem.mpr ⟨_, stays⟩)
  have least : root.value ≤ item.value := raised.least top _ stays
  have fresh := steady (young.map fun host => (host, value)) root top
  rcases offers_origin now value young sound
    (mem_contents.mpr ⟨root, mem_of_getElem? top, rfl⟩) with ⟨same, _⟩ | ⟨before, other⟩
  · have equal : root.value = value := same
    exact notBelow (equal ▸ least)
  · exact other ((mem_young _ before).mpr fresh)

theorem steady_iff [Nonempty Host] [Nonempty κ] (sound : Sound p) (now : Int) :
    Steady now p ↔ 0 ≤ p.ttlSeconds ∧ RootFresh (p.expireTime now) p ∧
      ∀ item ∈ p.minHeap, item.timestamp < p.expireTime now → IsMax item.value := by
  constructor
  · intro steady
    exact ⟨steady.ttl_nonneg sound, steady [], steady.isMax sound⟩
  · rintro ⟨kept, fresh, maximal⟩ items
    apply offers_rootFresh (by unfold expireTime; omega) items sound fresh
    intro e mem expired
    obtain ⟨item, lt, rfl⟩ := mem_contents.mp mem
    exact maximal item lt expired

theorem processEach_of_closed (closed : p.closed = true) (now : Int) (items : List (Host × κ)) :
    p.processEach now items = p := by
  induction items with
  | nil => rfl
  | cons item items ih =>
    simp only [processEach, foldl_cons, processStream, closed, if_true] at ih ⊢
    exact ih

/-- A batch retains what its elements one by one retain, for every list, exactly in the closed
    processors and in those with a TTL that is not negative, a root that is not expired and no
    expired item whose value anything exceeds. -/
theorem processStreamBatch_eq_processEach_iff [Nontrivial Host] [Nonempty κ] (reached : Reached p)
    (now : Int) :
    (∀ items, (p.processStreamBatch now items).retained = (p.processEach now items).retained) ↔
    p.closed = true ∨
      (0 ≤ p.ttlSeconds ∧ RootFresh (p.expireTime now) p ∧
        ∀ item ∈ p.minHeap, item.timestamp < p.expireTime now → IsMax item.value) := by
  have sound := reached.sound
  cases running : p.closed with
  | true =>
    refine iff_of_true ?_ (.inl rfl)
    intro items
    rw [processEach_of_closed running, processStreamBatch, if_pos running]
  | false =>
    rw [← steady_iff sound now]
    simp only [Bool.false_eq_true, false_or]
    constructor
    · intro same
      have start := sound.restamp (p.updateCount + 0) now
      -- The empty batch expires old items, no element at all does not.
      have fresh : RootFresh (p.expireTime now) p := by
        intro root top
        by_contra old
        have stays : (root.hostId, root.value, root.timestamp) ∈ p.retained :=
          ⟨root, mem_of_getElem? top, rfl⟩
        have none_ := same []
        rw [processStreamBatch_eq running] at none_
        rw [show p.retained = (p.processEach now []).retained from rfl, ← none_] at stays
        obtain ⟨e, member, host, _⟩ := mem_retained.mp stays
        exact cleanupExpired_root start top (not_le.mp old) e member host
      intro items
      apply steady_of_same items sound running
      intro items
      rw [← same, processStreamBatch_of_rootFresh running fresh]
      rfl
    · intro steady items
      rw [steady.processEach items sound running,
        processStreamBatch_of_rootFresh running (steady [])]
      rfl

/-- An item that is 50 seconds old, and a batch that updates it and adds another one. -/
theorem processStreamBatch_eq_processEach_iff_young :
    (((new 2 60 0 : Processor Nat Nat).step (.processStream 50000000000 1 5)).processStreamBatch
      100000000000 [(1, 9), (2, 7)]).retained =
    (((new 2 60 0 : Processor Nat Nat).step (.processStream 50000000000 1 5)).processEach
      100000000000 [(1, 9), (2, 7)]).retained :=
  (processStreamBatch_eq_processEach_iff
    (.call (.new 2 60 0 (by decide)) (.processStream 50000000000 1 5)) 100000000000).mpr
    (.inr ⟨by decide, fun root top => by cases top; decide, fun item inside expired => by
      rw [mem_singleton.mp inside] at expired
      exact absurd expired (by decide)⟩) _

/-- Host 1 is expired below the root. The batch raises host 2 above it and then turns host 3
    away; one by one, host 1 expires before host 3 comes, which is taken in. -/
theorem batch_differs :
    (1, 5, 0) ∈ (((new 2 60 0 : Processor Nat Nat).run
      [.processStream 0 1 5, .processStream 50000000000 2 1]).processStreamBatch
        100000000000 [(2, 10), (3, 3)]).retained ∧
    (1, 5, 0) ∉ (((new 2 60 0 : Processor Nat Nat).run
      [.processStream 0 1 5, .processStream 50000000000 2 1]).processEach
        100000000000 [(2, 10), (3, 3)]).retained ∧
    (3, 3, 100) ∈ (((new 2 60 0 : Processor Nat Nat).run
      [.processStream 0 1 5, .processStream 50000000000 2 1]).processEach
        100000000000 [(2, 10), (3, 3)]).retained := by
  refine ⟨?_, ?_, ?_⟩
  · show ∃ item ∈ _, _
    decide
  · show ¬ ∃ item ∈ _, _
    decide
  · show ∃ item ∈ _, _
    decide

end Processor

end Monitor.TopK
