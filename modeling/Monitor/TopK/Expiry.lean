import Monitor.TopK.Invariant

/-! # What expires

`cleanup_expired` looks at the root only, the least value, and stops at the first root that is
not expired. So it drops expired items of the least values and may leave others: an old item
stays as long as a young one below it does. The results say when a streaming call leaves no
expired item behind.
-/

namespace Monitor.TopK

open List

variable {Host κ : Type} [LinearOrder κ]

section Collection

variable {k time : Int} {hostId : Host} {value : κ} {held after : Multiset (Entry Host κ)}
  {gone : List Host} {e : Entry Host κ}

theorem Takes.origin (takes : Takes k hostId value time held after gone)
    (distinct : (held.map Entry.hostId).Nodup) (mem : e ∈ after) :
    (e.hostId = hostId ∧ e.value = value ∧ e.timestamp = time) ∨ (e ∈ held ∧ e.hostId ≠ hostId) := by
  cases takes with
  | @update old rest same =>
    rw [Multiset.map_cons, Multiset.nodup_cons] at distinct
    rcases Multiset.mem_cons.mp mem with rfl | mem
    · exact .inl ⟨rfl, rfl, rfl⟩
    · refine .inr ⟨Multiset.mem_cons_of_mem mem, ?_⟩
      intro again
      exact distinct.1 (Multiset.mem_map.mpr ⟨e, mem, again.trans same.symm⟩)
  | insert fresh room =>
    rcases Multiset.mem_cons.mp mem with rfl | mem
    · exact .inl ⟨rfl, rfl, rfl⟩
    · exact .inr ⟨mem, fresh e mem⟩
  | @evict least rest fresh full isLeast larger =>
    rcases Multiset.mem_cons.mp mem with rfl | mem
    · exact .inl ⟨rfl, rfl, rfl⟩
    · have before : e ∈ least ::ₘ rest := Multiset.mem_cons_of_mem mem
      exact .inr ⟨before, fresh e before⟩
  | discard fresh full notLarger => exact .inr ⟨mem, fresh e mem⟩

theorem Takes.accepted (takes : Takes k hostId value time held after gone)
    (room : (∃ e ∈ held, e.hostId = hostId) ∨ held.card < k) :
    ∃ e ∈ after, e.hostId = hostId ∧ e.timestamp = time := by
  cases takes with
  | update same => exact ⟨_, Multiset.mem_cons_self _ _, rfl, rfl⟩
  | insert fresh room => exact ⟨_, Multiset.mem_cons_self _ _, rfl, rfl⟩
  | evict fresh full isLeast larger => exact ⟨_, Multiset.mem_cons_self _ _, rfl, rfl⟩
  | discard fresh full notLarger =>
    rcases room with ⟨e, mem, same⟩ | room
    · exact absurd same (fresh e mem)
    · omega

end Collection

namespace Processor

/-- The `expire_time` of a call: older timestamps are expired. -/
def expireTime (p : Processor Host κ) (now : Int) : Int := seconds now - p.ttlSeconds

/-- Everything but the heap, the map and the announcements is the same. -/
def Framed (p q : Processor Host κ) : Prop :=
  q = { p with minHeap := q.minHeap, itemMap := q.itemMap, expired := q.expired }

omit [LinearOrder κ] in
theorem Framed.trans {p q r : Processor Host κ} (first : Framed p q) (second : Framed q r) :
    Framed p r := by
  unfold Framed at first second ⊢
  rw [second, first]

variable [DecidableEq Host] {p q : Processor Host κ}

/-- The processors that calls lead to. -/
inductive Reached : Processor Host κ → Prop
  | new (k ttlSeconds now : Int) (positive : 0 < k) : Reached (new k ttlSeconds now)
  | call {p : Processor Host κ} (before : Reached p) (op : Op Host κ) : Reached (p.step op)

theorem Reached.run (reached : Reached p) (ops : List (Op Host κ)) : Reached (p.run ops) :=
  foldlRecOn ops _ reached fun _ before op _ => .call before op

theorem Reached.sound (reached : Reached p) : Sound p := by
  induction reached with
  | new k ttlSeconds now positive => exact new_sound positive ttlSeconds now
  | call _ op sound => exact step_sound sound op

def RootFresh (expireTime : Int) (p : Processor Host κ) : Prop :=
  ∀ root, p.minHeap[0]? = some root → expireTime ≤ root.timestamp

variable {now : Int}

theorem cleanupExpired_of_rootFresh (fresh : RootFresh (p.expireTime now) p) :
    p.cleanupExpired now = p := by
  simp only [cleanupExpired]
  cases heap : p.minHeap with
  | nil => rfl
  | cons root rest =>
    have young : seconds now - p.ttlSeconds ≤ root.timestamp :=
      fresh root (by rw [heap, getElem?_cons_zero])
    simp only [length_cons, cleanupLoop, heap, getElem?_cons_zero]
    rw [if_neg (not_lt.mpr young)]

/-- What the loop of `cleanup_expired` leaves: it has dropped expired entries of least value,
    and the root is not expired. -/
structure Cleaned (expireTime : Int) (p q : Processor Host κ) : Prop where
  sound : Sound q
  framed : Framed p q
  parts : ∃ dropped, p.contents = q.contents + dropped ∧
    (∀ e ∈ dropped, e.timestamp < expireTime) ∧ ∀ e ∈ dropped, ∀ f ∈ q.contents, e.value ≤ f.value
  root : RootFresh expireTime q

omit [DecidableEq Host] in
theorem Cleaned.refl {expireTime : Int} (sound : Sound p) (root : RootFresh expireTime p) :
    Cleaned expireTime p p :=
  ⟨sound, rfl, ⟨0, by simp⟩, root⟩

theorem cleanupLoop_cleaned (expireTime : Int) (fuel : Nat) :
    ∀ {p : Processor Host κ}, Sound p → p.minHeap.length ≤ fuel →
      Cleaned expireTime p (cleanupLoop expireTime fuel p) := by
  induction fuel with
  | zero =>
    intro p sound enough
    apply Cleaned.refl sound
    intro root top
    rw [getElem?_eq_none enough] at top
    cases top
  | succ fuel ih =>
    intro p sound enough
    simp only [cleanupLoop]
    cases top : p.minHeap[0]? with
    | none =>
      apply Cleaned.refl sound
      intro root top'
      rw [top] at top'
      cases top'
    | some root =>
      obtain ⟨rest, shape⟩ := shape_of_root top
      by_cases old : root.timestamp < expireTime
      · simp only [if_pos old]
        have became := dropExpired_became sound.toValid shape
        have fewer := dropExpired_length sound.toValid shape
        rw [shape, length_cons] at enough
        obtain ⟨soundLast, framed, ⟨dropped, parts, expired, low⟩, fresh⟩ :=
          ih (dropExpired_sound sound shape) (by omega)
        refine ⟨soundLast, Framed.trans became.frame framed,
          ⟨root.entry ::ₘ dropped, ?_, ?_, ?_⟩, fresh⟩
        · rw [contents_cons shape, Multiset.add_cons, ← parts, became.contents]
        · rw [Multiset.forall_mem_cons]
          exact ⟨old, expired⟩
        · rw [Multiset.forall_mem_cons]
          refine ⟨?_, low⟩
          intro f kept
          apply sound.least top f
          rw [contents_cons shape, ← became.contents, parts]
          exact Multiset.mem_cons_of_mem (Multiset.mem_add.mpr (.inl kept))
      · simp only [if_neg old]
        apply Cleaned.refl sound
        intro root' top'
        rw [top] at top'
        cases top'
        exact not_lt.mp old

theorem cleanupExpired_cleaned (sound : Sound p) (now : Int) :
    Cleaned (p.expireTime now) p (p.cleanupExpired now) :=
  cleanupLoop_cleaned _ _ sound le_rfl

/-- One decision after the other. -/
def offers (now : Int) (p : Processor Host κ) (items : List (Host × κ)) : Processor Host κ :=
  items.foldl (fun p item => offer now p item.1 item.2) p

/-- Both streaming calls note the number of updates and the time first. -/
def restamp (p : Processor Host κ) (updateCount : Int64) (lastUpdate : Int) : Processor Host κ :=
  { p with updateCount := updateCount, lastUpdate := lastUpdate }

@[simp] theorem offers_nil (now : Int) (p : Processor Host κ) : offers now p [] = p := rfl

@[simp] theorem offers_cons (now : Int) (p : Processor Host κ) (item : Host × κ)
    (items : List (Host × κ)) :
    offers now p (item :: items) = offers now (offer now p item.1 item.2) items := rfl

omit [DecidableEq Host] in
theorem Sound.restamp (sound : Sound p) (updateCount : Int64) (lastUpdate : Int) :
    Sound (p.restamp updateCount lastUpdate) :=
  sound.transport rfl rfl rfl

theorem offer_origin (sound : Sound p) {hostId : Host} {value : κ} {e : Entry Host κ}
    (mem : e ∈ (offer now p hostId value).contents) :
    (e.hostId = hostId ∧ e.value = value ∧ e.timestamp = seconds now) ∨
      (e ∈ p.contents ∧ e.hostId ≠ hostId) := by
  obtain ⟨after, gone, became, takes⟩ := offer_takes sound now hostId value
  rw [became.contents] at mem
  exact takes.origin sound.linked.distinct mem

theorem offers_framed (sound : Sound p) (now : Int) (items : List (Host × κ)) :
    Framed p (offers now p items) := by
  induction items generalizing p with
  | nil => rfl
  | cons item items ih =>
    obtain ⟨_, _, became, _⟩ := offer_takes sound now item.1 item.2
    exact Framed.trans became.frame (ih (offer_sound sound now item.1 item.2))

/-- The streaming calls at a clock reading. -/
def Op.StreamsAt (now : Int) : Op Host κ → Prop
  | .processStream time _ _ => time = now
  | .processStreamBatch time _ => time = now
  | _ => False

theorem processStream_eq (running : p.closed = false) (now : Int) (hostId : Host) (value : κ) :
    p.processStream now hostId value =
      offers now ((p.restamp (p.updateCount + 1) now).cleanupExpired now) [(hostId, value)] := by
  rw [processStream, if_neg (by rw [running]; exact Bool.false_ne_true)]
  rfl

theorem processStreamBatch_eq (running : p.closed = false) (now : Int) (items : List (Host × κ)) :
    p.processStreamBatch now items =
      offers now ((p.restamp (p.updateCount + Int64.ofNat items.length) now).cleanupExpired now) items := by
  rw [processStreamBatch, if_neg (by rw [running]; exact Bool.false_ne_true)]
  rfl

theorem step_streams {op : Op Host κ} (running : p.closed = false) (streams : op.StreamsAt now) :
    ∃ updateCount items,
      p.step op = offers now ((p.restamp updateCount now).cleanupExpired now) items := by
  cases op with
  | processStream time hostId value =>
    cases streams
    exact ⟨_, _, processStream_eq running now hostId value⟩
  | processStreamBatch time items =>
    cases streams
    exact ⟨_, _, processStreamBatch_eq running now items⟩
  | setK | setTtl | setExpireCallback | clear | close => cases streams

theorem dropRoot_closed (p : Processor Host κ) (root : Item Host κ) :
    (p.dropRoot root).closed = p.closed := by
  simp only [dropRoot, triggerExpireCallback_eq]
  rw [(heapifyDown_shuffled _ 0).frame]
  simp only [moveLastToRoot]
  split <;> rfl

theorem shrinkLoop_closed (fuel : Nat) :
    ∀ p : Processor Host κ, (shrinkLoop fuel p).closed = p.closed := by
  induction fuel with
  | zero => exact fun _ => rfl
  | succ fuel ih =>
    intro p
    simp only [shrinkLoop]
    split
    · split
      · rfl
      · rw [ih, dropRoot_closed]
    · rfl

theorem stream_closed (sound : Sound p) (running : p.closed = false) (updateCount : Int64)
    (now : Int) (items : List (Host × κ)) :
    (offers now ((p.restamp updateCount now).cleanupExpired now) items).closed = false := by
  have cleaned := cleanupExpired_cleaned (sound.restamp updateCount now) now
  rw [offers_framed cleaned.sound, cleaned.framed]
  exact running

theorem step_closed (sound : Sound p) (running : p.closed = false) {op : Op Host κ}
    (other : op ≠ .close) : (p.step op).closed = false := by
  cases op with
  | processStream now hostId value =>
    rw [step, processStream_eq running]
    exact stream_closed sound running _ _ _
  | processStreamBatch now items =>
    rw [step, processStreamBatch_eq running]
    exact stream_closed sound running _ _ _
  | setK k =>
    simp only [step, setK]
    split
    · exact running
    · rw [shrinkLoop_closed]
      exact running
  | setTtl seconds =>
    simp only [step, setTtl]
    split <;> exact running
  | setExpireCallback callback => exact running
  | clear =>
    simp only [step, clear]
    split
    · exact running
    · rw [(dropAll_became p).frame]
      exact running
  | close => exact absurd rfl other

theorem step_of_closed (closed : p.closed = true) (op : Op Host κ) :
    (p.step op).minHeap = p.minHeap := by
  cases op <;> simp [step, processStream, processStreamBatch, setK, setTtl, setExpireCallback,
    clear, Processor.close, closed]

theorem Reached.closed_empty (reached : Reached p) (closed : p.closed = true) : p.minHeap = [] := by
  induction reached with
  | new k ttlSeconds now positive => rfl
  | @call p before op ih =>
    cases running : p.closed with
    | true => rw [step_of_closed running, ih running]
    | false =>
      by_cases last : op = .close
      · subst last
        rw [step, Processor.close, if_neg (by rw [running]; exact Bool.false_ne_true)]
        rfl
      · rw [step_closed before.sound running last] at closed
        cases closed

def AllFresh (expireTime : Int) (p : Processor Host κ) : Prop :=
  ∀ item ∈ p.minHeap, expireTime ≤ item.timestamp

omit [LinearOrder κ] [DecidableEq Host] in
theorem allFresh_iff {expireTime : Int} :
    AllFresh expireTime p ↔ ∀ e ∈ p.contents, expireTime ≤ e.timestamp := by
  simp only [AllFresh, contents, Multiset.mem_coe, forall_mem_map]
  rfl

theorem offers_allFresh {ttl : Int} (kept : 0 ≤ ttl) (sound : Sound p)
    (fresh : AllFresh (seconds now - ttl) p) (items : List (Host × κ)) :
    AllFresh (seconds now - ttl) (offers now p items) := by
  induction items generalizing p with
  | nil => exact fresh
  | cons item items ih =>
    apply ih (offer_sound sound now item.1 item.2)
    rw [allFresh_iff] at fresh ⊢
    intro e mem
    rcases offer_origin sound mem with ⟨_, _, current⟩ | ⟨before, _⟩
    · omega
    · exact fresh e before

/-- Every expired item is below every other one, in the sense of `less`. -/
def ExpiredBelow (less : κ → κ → Prop) (p : Processor Host κ) (now : Int) : Prop :=
  ∀ old ∈ p.minHeap, ∀ young ∈ p.minHeap, old.timestamp < p.expireTime now →
    p.expireTime now ≤ young.timestamp → less old.value young.value

omit [LinearOrder κ] [DecidableEq Host] in
theorem mem_contents {e : Entry Host κ} : e ∈ p.contents ↔ ∃ item ∈ p.minHeap, item.entry = e := by
  simp only [contents, Multiset.mem_coe, mem_map]

omit [DecidableEq Host] in
theorem Cleaned.allFresh (cleaned : Cleaned (p.expireTime now) p q)
    (below : p.ExpiredBelow (· < ·) now) : AllFresh (p.expireTime now) q := by
  intro item lt
  by_contra old
  obtain ⟨dropped, parts, _⟩ := cleaned.parts
  have before : ∀ x ∈ q.minHeap, ∃ y ∈ p.minHeap, y.entry = x.entry := by
    intro x mem
    apply mem_contents.mp
    rw [parts]
    exact Multiset.mem_add.mpr (.inl (mem_contents.mpr ⟨x, mem, rfl⟩))
  cases top : q.minHeap[0]? with
  | none =>
    rw [eq_nil_of_length_eq_zero (Nat.le_zero.mp (List.getElem?_eq_none_iff.mp top))]
      at lt
    cases lt
  | some root =>
    obtain ⟨oldItem, oldIn, oldSame⟩ := before item lt
    obtain ⟨young, youngIn, youngSame⟩ := before root (mem_of_getElem? top)
    have fresh := cleaned.root root top
    have least := cleaned.sound.root_le top lt
    simp only [Item.entry, Entry.mk.injEq] at oldSame youngSame
    have less := below oldItem oldIn young youngIn (by omega) (by omega)
    rw [oldSame.2.1, youngSame.2.1] at less
    exact absurd least (not_le.mpr less)

omit [DecidableEq Host] in
theorem Cleaned.keeps {expireTime : Int} (cleaned : Cleaned expireTime p q)
    {old young : Entry Host κ} (oldIn : old ∈ p.contents) (youngIn : young ∈ p.contents)
    (fresh : expireTime ≤ young.timestamp) (above : young.value < old.value) : old ∈ q.contents := by
  obtain ⟨dropped, parts, expired, low⟩ := cleaned.parts
  rw [parts, Multiset.mem_add] at oldIn youngIn
  have kept : young ∈ q.contents := by
    cases youngIn with
    | inl kept => exact kept
    | inr gone =>
      have := expired young gone
      omega
  cases oldIn with
  | inl kept => exact kept
  | inr gone => exact absurd (low old gone young kept) (not_le.mpr above)

theorem negative_ttl_expires [Nonempty Host] [Nonempty κ] (sound : Sound p) (now : Int) {ttl : Int}
    (negative : ttl < 0) :
    ∃ hostId value, ¬ AllFresh (seconds now - ttl) (offers now p [(hostId, value)]) := by
  have accepted : ∃ hostId, (∃ e ∈ p.contents, e.hostId = hostId) ∨ p.contents.card < p.k := by
    cases heap : p.minHeap with
    | nil =>
      refine ⟨Classical.arbitrary Host, .inr ?_⟩
      rw [card_contents, heap]
      exact sound.positive
    | cons root rest =>
      refine ⟨root.hostId, .inl ⟨root.entry, ?_, rfl⟩⟩
      rw [contents_cons heap]
      exact Multiset.mem_cons_self _ _
  obtain ⟨hostId, room⟩ := accepted
  obtain ⟨after, gone, became, takes⟩ :=
    offer_takes sound now hostId (Classical.arbitrary κ)
  obtain ⟨e, mem, _, current⟩ := takes.accepted room
  refine ⟨hostId, Classical.arbitrary κ, ?_⟩
  intro fresh
  have inTime := allFresh_iff.mp fresh e (by rwa [offers_cons, offers_nil, became.contents])
  omega

/-- A streaming call leaves nothing expired if the processor is closed, or the TTL is not
    negative and every expired item has a value below all the others'. If every such call does,
    the processor is closed, or the TTL is not negative and no expired item has a value above
    another's. Between the two lie ties, which the places in the heap decide. -/
theorem stream_allFresh [Nonempty Host] [Nonempty κ] (reached : Reached p) (now : Int) :
    (p.closed = true ∨ (0 ≤ p.ttlSeconds ∧ p.ExpiredBelow (· < ·) now) →
      ∀ op : Op Host κ, op.StreamsAt now → AllFresh (p.expireTime now) (p.step op)) ∧
    ((∀ op : Op Host κ, op.StreamsAt now → AllFresh (p.expireTime now) (p.step op)) →
      p.closed = true ∨ (0 ≤ p.ttlSeconds ∧ p.ExpiredBelow (· ≤ ·) now)) := by
  cases running : p.closed with
  | true =>
    refine ⟨fun _ op _ => ?_, fun _ => .inl rfl⟩
    rw [AllFresh, step_of_closed running, reached.closed_empty running]
    simp
  | false =>
    have start := fun updateCount =>
      cleanupExpired_cleaned (reached.sound.restamp updateCount now) now
    simp only [Bool.false_eq_true, false_or]
    constructor
    · rintro ⟨kept, below⟩ op streams
      obtain ⟨updateCount, items, result⟩ := step_streams running streams
      rw [result]
      exact offers_allFresh kept (start updateCount).sound ((start updateCount).allFresh below)
        items
    · intro always
      constructor
      · by_contra negative
        obtain ⟨hostId, value, expires⟩ :=
          negative_ttl_expires (start (p.updateCount + 1)).sound now (not_le.mp negative)
        apply expires
        rw [← processStream_eq running]
        exact always (.processStream now hostId value) rfl
      · intro old oldIn young youngIn expired fresh
        by_contra above
        have stays := (start (p.updateCount + 0)).keeps (mem_contents.mpr ⟨old, oldIn, rfl⟩)
          (mem_contents.mpr ⟨young, youngIn, rfl⟩) fresh (not_le.mp above)
        have empty := always (.processStreamBatch now []) rfl
        rw [step, processStreamBatch_eq running, allFresh_iff] at empty
        exact absurd expired (not_lt.mpr (empty _ stays))

/-- Host 1, with the smaller value, is expired, host 2 is not, and host 3 takes the place of host 1. -/
theorem stream_allFresh_lowest :
    (((new 2 60 0 : Processor Nat Nat).run
      [.processStream 0 1 5, .processStream 50000000000 2 9]).minHeap.map fun item => item.hostId) = [1, 2] ∧
    AllFresh (Processor.expireTime ((new 2 60 0 : Processor Nat Nat).run
        [.processStream 0 1 5, .processStream 50000000000 2 9]) 100000000000)
      (((new 2 60 0 : Processor Nat Nat).run
        [.processStream 0 1 5, .processStream 50000000000 2 9]).step (.processStream 100000000000 3 7)) := by
  have start : Reached (new 2 60 0 : Processor Nat Nat) := .new 2 60 0 (by decide)
  have reached := start.run [.processStream 0 1 5, .processStream 50000000000 2 9]
  have below : ExpiredBelow (· < ·) ((new 2 60 0 : Processor Nat Nat).run
      [.processStream 0 1 5, .processStream 50000000000 2 9]) 100000000000 := by
    unfold ExpiredBelow
    decide
  exact ⟨by decide, (stream_allFresh reached 100000000000).1 (.inr ⟨by decide, below⟩) _ rfl⟩

/-- Host 1 has been silent for 100 seconds and host 2, with a smaller value, for 50: an update of
    host 2 leaves host 1 in place, 40 seconds beyond the TTL. -/
theorem expired_stays :
    ((((new 2 60 0 : Processor Nat Nat).run
      [.processStream 0 1 5, .processStream 50000000000 2 1]).step
        (.processStream 100000000000 2 1)).minHeap.map
          fun item => (item.hostId, item.value, item.timestamp)) = [(2, 1, 100), (1, 5, 0)] ∧
    ¬ AllFresh (Processor.expireTime ((new 2 60 0 : Processor Nat Nat).run
        [.processStream 0 1 5, .processStream 50000000000 2 1]) 100000000000)
      (((new 2 60 0 : Processor Nat Nat).run
        [.processStream 0 1 5, .processStream 50000000000 2 1]).step
          (.processStream 100000000000 2 1)) := by
  unfold AllFresh
  decide

end Processor

end Monitor.TopK
