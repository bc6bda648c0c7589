import Monitor.TopK.Expiry

/-! # The Top-K is exact on growing values

A processor that forgets the hosts it turns away can still be exact, as long as no
host's value ever falls: a forgotten host's latest value never exceeds any retained
one, and hosts are only forgotten when the collection is full. `Tracks` is that
invariant of a bounded collection against the full history, and `Takes` keeps it.
-/

namespace Monitor.TopK

open List Function

variable {Host κ : Type}

section Collection

variable [LinearOrder κ] {k time : Int} {hostId : Host} {value : κ}
  {held after : Multiset (Entry Host κ)} {gone : List Host} {seen : Host → Option κ}

/-- A collection against the latest value of every host ever seen. -/
structure Tracks (k : Int) (held : Multiset (Entry Host κ)) (seen : Host → Option κ) : Prop where
  current : ∀ e ∈ held, seen e.hostId = some e.value
  covered : ∀ host v, seen host = some v →
    (∃ e ∈ held, e.hostId = host) ∨ (k ≤ held.card ∧ ∀ e ∈ held, v ≤ e.value)

theorem Tracks.empty (k : Int) : Tracks k (0 : Multiset (Entry Host κ)) (fun _ => none) where
  current := by
    intro e mem
    cases Multiset.notMem_zero e mem
  covered := by
    intro host v known
    cases known

variable [DecidableEq Host]

theorem Tracks.update (h : Tracks k held seen) {others : Multiset (Entry Host κ)} {new : Entry Host κ}
    (sub : ∀ e ∈ others, e ∈ held ∧ e.hostId ≠ new.hostId)
    (covered : ∀ host ≠ new.hostId, ∀ v, seen host = some v →
      (∃ e ∈ new ::ₘ others, e.hostId = host) ∨
        (k ≤ (new ::ₘ others).card ∧ ∀ e ∈ new ::ₘ others, v ≤ e.value)) :
    Tracks k (new ::ₘ others) (update seen new.hostId (some new.value)) := by
  refine ⟨fun e mem => ?_, fun host v known => ?_⟩
  · rcases Multiset.mem_cons.mp mem with rfl | mem
    · exact update_self ..
    · obtain ⟨lt, other⟩ := sub e mem
      rw [update_of_ne other]
      exact h.current e lt
  · by_cases here : host = new.hostId
    · exact .inl ⟨_, Multiset.mem_cons_self _ _, here.symm⟩
    · rw [update_of_ne here] at known
      exact covered host here v known

theorem Takes.tracks (takes : Takes k hostId value time held after gone)
    (distinct : (held.map Entry.hostId).Nodup) (h : Tracks k held seen)
    (growing : ∀ old, seen hostId = some old → old ≤ value) :
    Tracks k after (Function.update seen hostId (some value)) := by
  cases takes with
  | @update old rest same =>
    rw [Multiset.map_cons, Multiset.nodup_cons] at distinct
    have others : ∀ e ∈ rest, e ∈ old ::ₘ rest ∧ e.hostId ≠ hostId := by
      intro e mem
      refine ⟨Multiset.mem_cons_of_mem mem, ?_⟩
      rintro shared
      exact distinct.1 (Multiset.mem_map.mpr ⟨e, mem, shared.trans same.symm⟩)
    have grown : old.value ≤ value := by
      apply growing
      rw [← same]
      exact h.current old (Multiset.mem_cons_self old rest)
    refine h.update others fun host other v known => ?_
    rcases h.covered host v known with ⟨e, mem, isHost⟩ | ⟨full, low⟩
    · rcases Multiset.mem_cons.mp mem with rfl | mem
      · exact absurd (isHost.symm.trans same) other
      · exact .inl ⟨e, Multiset.mem_cons_of_mem mem, isHost⟩
    · refine .inr ⟨by simpa only [Multiset.card_cons] using full, ?_⟩
      intro e mem
      rcases Multiset.mem_cons.mp mem with rfl | mem
      · exact (low old (Multiset.mem_cons_self old rest)).trans grown
      · exact low e (Multiset.mem_cons_of_mem mem)
  | insert fresh room =>
    refine h.update (fun e mem => ⟨mem, fresh e mem⟩) fun host _ v known => ?_
    rcases h.covered host v known with ⟨e, mem, isHost⟩ | ⟨full, _⟩
    · exact .inl ⟨e, Multiset.mem_cons_of_mem mem, isHost⟩
    · omega
  | @evict least rest fresh full isLeast larger =>
    have others : ∀ e ∈ rest, e ∈ least ::ₘ rest ∧ e.hostId ≠ hostId :=
      fun e mem =>
        ⟨Multiset.mem_cons_of_mem mem, fresh e (Multiset.mem_cons_of_mem mem)⟩
    -- Whatever is at most the evicted value is at most everything retained afterwards.
    have below : ∀ v, v ≤ least.value →
        ∀ e ∈ (⟨hostId, value, time, 1⟩ : Entry Host κ) ::ₘ rest, v ≤ e.value := by
      intro v small e mem
      rcases Multiset.mem_cons.mp mem with rfl | mem
      · exact small.trans larger.le
      · exact small.trans (isLeast e mem)
    rw [Multiset.card_cons] at full
    refine h.update others fun host _ v known => ?_
    rw [Multiset.card_cons]
    rcases h.covered host v known with ⟨e, mem, isHost⟩ | ⟨_, low⟩
    · rcases Multiset.mem_cons.mp mem with rfl | mem
      · have evicted := h.current e (Multiset.mem_cons_self e rest)
        rw [isHost, known] at evicted
        exact .inr ⟨full, below v (Option.some.inj evicted).le⟩
      · exact .inl ⟨e, Multiset.mem_cons_of_mem mem, isHost⟩
    · exact .inr ⟨full, below v (low least (Multiset.mem_cons_self least rest))⟩
  | discard fresh full notLarger =>
    refine ⟨?_, ?_⟩
    · intro e mem
      rw [update_of_ne (fresh e mem)]
      exact h.current e mem
    · intro host v known
      by_cases here : host = hostId
      · rw [here, update_self] at known
        cases known
        exact .inr ⟨full, notLarger⟩
      · rw [update_of_ne here] at known
        exact h.covered host v known

end Collection

section Largest

variable [LinearOrder κ]

/-- The `k` largest of some values, in descending order. -/
def largest (k : Nat) (values : List κ) : List κ := (values.insertionSort (· ≥ ·)).take k

/-- A descending part of the values is their largest part once the others do not exceed it and
    are only left out for lack of room. -/
theorem largest_eq {k : Nat} {values kept : List κ} (others : List κ)
    (parts : values.Perm (kept ++ others))
    (sorted : kept.Pairwise (· ≥ ·)) (low : ∀ a ∈ kept, ∀ b ∈ others, b ≤ a)
    (bounded : kept.length ≤ k) (full : others ≠ [] → k ≤ kept.length) : largest k values = kept := by
  have order : (kept ++ others.insertionSort (· ≥ ·)).Pairwise (· ≥ ·) := by
    refine pairwise_append.mpr ⟨sorted, pairwise_insertionSort _ others, ?_⟩
    intro a inKept b inOthers
    exact low a inKept b ((mem_insertionSort _).mp inOthers)
  have same : (values.insertionSort (· ≥ ·)).Perm (kept ++ others.insertionSort (· ≥ ·)) :=
    (perm_insertionSort _ values).trans
      (parts.trans ((perm_insertionSort _ others).symm.append_left kept))
  have split_ : values.insertionSort (· ≥ ·) = kept ++ others.insertionSort (· ≥ ·) :=
    same.eq_of_pairwise' (pairwise_insertionSort _ values) order
  rw [largest, split_]
  by_cases none_ : others = []
  · subst none_
    rw [insertionSort_nil, append_nil, take_of_length_le bounded]
  · rw [take_left' (le_antisymm bounded (full none_))]

end Largest

/-- One call of `process_stream`. -/
structure Update (Host κ : Type) where
  now : Int
  hostId : Host
  value : κ

section Stream

variable [DecidableEq Host] {stream : List (Update Host κ)} {u : Update Host κ}

def latest (stream : List (Update Host κ)) (hostId : Host) : Option κ :=
  (stream.reverse.find? (·.hostId = hostId)).map Update.value

def hostsSeen (stream : List (Update Host κ)) : List Host := (stream.map Update.hostId).dedup

def latestValues (stream : List (Update Host κ)) : List κ :=
  (hostsSeen stream).filterMap (latest stream)

theorem latest_append (stream : List (Update Host κ)) (u : Update Host κ) :
    latest (stream ++ [u]) = update (latest stream) u.hostId (some u.value) := by
  funext hostId
  simp only [latest, reverse_append, reverse_singleton, singleton_append, find?_cons]
  by_cases here : hostId = u.hostId
  · simp only [here, decide_true, Option.map_some, update_self]
  · simp only [Ne.symm here, decide_false, update_of_ne here, latest]

theorem latest_mem {hostId : Host} {v : κ} (known : latest stream hostId = some v) :
    ∃ u ∈ stream, u.hostId = hostId ∧ u.value = v := by
  simp only [latest, Option.map_eq_some_iff] at known
  obtain ⟨u, found, same⟩ := known
  have isHost := find?_some found
  exact ⟨u, mem_reverse.mp (mem_of_find?_eq_some found), of_decide_eq_true isHost, same⟩

theorem mem_hostsSeen {hostId : Host} :
    hostId ∈ hostsSeen stream ↔ ∃ v, latest stream hostId = some v := by
  simp only [hostsSeen, mem_dedup, mem_map]
  constructor
  · rintro ⟨u, lt, same⟩
    have found : (stream.reverse.find? (·.hostId = hostId)).isSome :=
      find?_isSome.mpr ⟨u, mem_reverse.mpr lt, decide_eq_true same⟩
    obtain ⟨w, isW⟩ := Option.isSome_iff_exists.mp found
    exact ⟨w.value, by rw [latest, isW, Option.map_some]⟩
  · rintro ⟨v, known⟩
    obtain ⟨u, lt, same, _⟩ := latest_mem known
    exact ⟨u, lt, same⟩

theorem hostsSeen_parts {retained : List Host} (distinct : retained.Nodup)
    (known : ∀ hostId ∈ retained, hostId ∈ hostsSeen stream) :
    (hostsSeen stream).Perm (retained ++ (hostsSeen stream).filter (· ∉ retained)) := by
  have seenOnce : (hostsSeen stream).Nodup := nodup_dedup _
  have inSeen : retained.Perm ((hostsSeen stream).filter (· ∈ retained)) := by
    rw [perm_ext_iff_of_nodup distinct (seenOnce.filter _)]
    intro hostId
    simp only [mem_filter, decide_eq_true_eq]
    exact ⟨fun mem => ⟨known hostId mem, mem⟩, And.right⟩
  have split_ := filter_append_perm (fun hostId => decide (hostId ∈ retained)) (hostsSeen stream)
  simp only [← decide_not] at split_
  exact split_.symm.trans (inSeen.symm.append_right _)

theorem values_eq_filterMap {items : List (Item Host κ)}
    (current : ∀ item ∈ items, latest stream item.hostId = some item.value) :
    items.map Item.value = (items.map Item.hostId).filterMap (latest stream) := by
  induction items with
  | nil => rfl
  | cons item items ih =>
    rw [map_cons, map_cons, filterMap_cons_some (current item mem_cons_self),
      ih fun other mem => current other (mem_cons_of_mem item mem)]

end Stream

/-- Each host's successive values never decrease. -/
def Growing [LinearOrder κ] (stream : List (Update Host κ)) : Prop :=
  stream.Pairwise fun a b => a.hostId = b.hostId → a.value ≤ b.value

instance [DecidableEq Host] [LinearOrder κ] (stream : List (Update Host κ)) :
    Decidable (Growing stream) :=
  inferInstanceAs (Decidable (stream.Pairwise fun a b => a.hostId = b.hostId → a.value ≤ b.value))

namespace Processor

variable [DecidableEq Host] [LinearOrder κ]

def feed (p : Processor Host κ) (stream : List (Update Host κ)) : Processor Host κ :=
  stream.foldl (fun p u => p.processStream u.now u.hostId u.value) p

/-- No retained item has reached its age limit at any call of the stream. -/
def NoExpiry (p : Processor Host κ) (stream : List (Update Host κ)) : Prop :=
  ∀ i, (inside : i < stream.length) → ∀ item ∈ (p.feed (stream.take i)).minHeap,
    seconds stream[i].now - p.ttlSeconds ≤ item.timestamp

instance (p : Processor Host κ) (stream : List (Update Host κ)) : Decidable (NoExpiry p stream) :=
  inferInstanceAs (Decidable (∀ i, (inside : i < stream.length) →
    ∀ item ∈ (p.feed (stream.take i)).minHeap, seconds stream[i].now - p.ttlSeconds ≤ item.timestamp))

variable {p : Processor Host κ} {k ttlSeconds now : Int} {stream : List (Update Host κ)}

theorem feed_append (p : Processor Host κ) (stream : List (Update Host κ)) (u : Update Host κ) :
    p.feed (stream ++ [u]) = (p.feed stream).processStream u.now u.hostId u.value := by
  rw [feed, foldl_append]
  rfl

/-- A processor that has followed a stream without losing an item to its age. -/
structure Follows (k ttlSeconds : Int) (stream : List (Update Host κ)) (p : Processor Host κ) :
    Prop extends Sound p where
  running : p.closed = false
  sameK : p.k = k
  sameTtl : p.ttlSeconds = ttlSeconds
  tracks : Tracks k p.contents (latest stream)

theorem Follows.next (h : Follows k ttlSeconds stream p) (u : Update Host κ)
    (growing : ∀ old, latest stream u.hostId = some old → old ≤ u.value)
    (alive : ∀ item ∈ p.minHeap, seconds u.now - ttlSeconds ≤ item.timestamp) :
    Follows k ttlSeconds (stream ++ [u]) (p.processStream u.now u.hostId u.value) := by
  let q : Processor Host κ := p.restamp (p.updateCount + 1) u.now
  have sound : Sound q := h.toSound.transport rfl rfl rfl
  have kept : q.cleanupExpired u.now = q := by
    apply cleanupExpired_of_rootFresh
    intro root top
    rw [expireTime, show q.ttlSeconds = ttlSeconds from h.sameTtl]
    exact alive root (mem_of_getElem? top)
  have step_ : p.processStream u.now u.hostId u.value = offer u.now q u.hostId u.value := by
    rw [processStream_eq h.running, kept]
    rfl
  rw [step_]
  obtain ⟨after, gone, became, takes⟩ := offer_takes sound u.now u.hostId u.value
  refine ⟨offer_sound sound _ _ _, ?_, ?_, ?_, ?_⟩
  · rw [became.frame]
    exact h.running
  · rw [became.frame]
    exact h.sameK
  · rw [became.frame]
    exact h.sameTtl
  · rw [became.contents, latest_append]
    rw [show q.k = k from h.sameK] at takes
    exact takes.tracks sound.linked.distinct h.tracks growing

theorem new_follows (pos : 0 < k) :
    Follows k ttlSeconds [] (new k ttlSeconds now : Processor Host κ) where
  toSound := new_sound pos ttlSeconds now
  running := rfl
  sameK := rfl
  sameTtl := rfl
  tracks := Tracks.empty k

theorem feed_follows (pos : 0 < k) (growing : Growing stream)
    (alive : NoExpiry (new k ttlSeconds now) stream) :
    Follows k ttlSeconds stream ((new k ttlSeconds now).feed stream) := by
  induction stream using List.reverseRecOn with
  | nil => exact new_follows pos
  | append_singleton stream u ih =>
    obtain ⟨before, _, across⟩ := pairwise_append.mp growing
    have earlier : NoExpiry (new k ttlSeconds now) stream := by
      intro i lt
      have := alive i (by rw [length_append]; omega)
      rwa [take_append_of_le_length lt.le, getElem_append_left lt] at this
    rw [feed_append]
    apply (ih before earlier).next u
    · intro old known
      obtain ⟨w, lt, same, rfl⟩ := latest_mem known
      exact across w lt u (mem_singleton_self u) same
    · have := alive stream.length (by simp)
      rwa [take_left, getElem_concat_length rfl] at this

theorem Follows.topK (h : Follows k ttlSeconds stream p) {result : List (Item Host κ)}
    (perm : result.Perm p.minHeap) (sorted : result.Pairwise fun a b => b.value ≤ a.value) :
    result.length = min k.toNat (hostsSeen stream).length ∧
      (∀ item ∈ result, latest stream item.hostId = some item.value) ∧
      result.map Item.value = largest k.toNat (latestValues stream) := by
  have current : ∀ item ∈ result, latest stream item.hostId = some item.value := by
    intro item mem
    exact h.tracks.current item.entry (mem_map_of_mem (perm.mem_iff.mp mem))
  have bounded : result.length ≤ k.toNat := by
    have := h.bounded
    rw [h.sameK, ← perm.length_eq] at this
    omega
  let retained := result.map Item.hostId
  let forgotten := (hostsSeen stream).filter (· ∉ retained)
  have distinct : retained.Nodup := (perm.map Item.hostId).nodup_iff.mpr h.linked.inverse.nodup
  have parts : (hostsSeen stream).Perm (retained ++ forgotten) := by
    apply hostsSeen_parts distinct
    intro hostId mem
    obtain ⟨item, lt, rfl⟩ := mem_map.mp mem
    exact mem_hostsSeen.mpr ⟨_, current item lt⟩
  have low : ∀ hostId ∈ forgotten, k.toNat ≤ result.length ∧
      ∀ v, latest stream hostId = some v → ∀ item ∈ result, v ≤ item.value := by
    intro hostId mem
    simp only [forgotten, mem_filter, decide_eq_true_eq] at mem
    obtain ⟨v, known⟩ := mem_hostsSeen.mp mem.1
    rcases h.tracks.covered hostId v known with ⟨e, lt, same⟩ | ⟨full, low⟩
    · obtain ⟨item, inHeap, rfl⟩ := mem_map.mp lt
      exact absurd (mem_map.mpr ⟨item, perm.mem_iff.mpr inHeap, same⟩) mem.2
    · rw [card_contents, ← perm.length_eq] at full
      refine ⟨by omega, ?_⟩
      intro w alsoKnown item inResult
      rw [known] at alsoKnown
      cases alsoKnown
      exact low item.entry (mem_map_of_mem (perm.mem_iff.mp inResult))
  refine ⟨?_, current, ?_⟩
  · have total := parts.length_eq
    rw [length_append, length_map] at total
    cases rest : forgotten with
    | nil =>
      rw [rest, length_nil] at total
      omega
    | cons hostId _ =>
      have := (low hostId (by rw [rest]; exact mem_cons_self)).1
      omega
  · symm
    apply largest_eq (forgotten.filterMap (latest stream))
    · rw [values_eq_filterMap current, ← filterMap_append]
      exact parts.filterMap _
    · exact pairwise_map.mpr sorted
    · intro a inKept b inOthers
      obtain ⟨item, lt, rfl⟩ := mem_map.mp inKept
      obtain ⟨hostId, mem, known⟩ := mem_filterMap.mp inOthers
      exact (low hostId mem).2 b known item lt
    · rwa [length_map]
    · intro some_
      rw [length_map]
      obtain ⟨b, inOthers⟩ := exists_mem_of_ne_nil _ some_
      obtain ⟨hostId, mem, _⟩ := mem_filterMap.mp inOthers
      exact (low hostId mem).1

/-- Fed with values that never fall and without expiry, the processor returns the largest latest
    values of all hosts ever seen, in descending order and each with its own host. -/
theorem getTopK_exact (std : StdSort (@larger Host κ _)) (positive : 0 < k)
    (growing : Growing stream) (alive : NoExpiry (new k ttlSeconds now) stream) :
    let result := getTopK std ((new k ttlSeconds now).feed stream)
    result.length = min k.toNat (hostsSeen stream).length ∧
      result.Pairwise (fun a b => b.value ≤ a.value) ∧
      (result.map Item.hostId).Nodup ∧
      (∀ item ∈ result, latest stream item.hostId = some item.value) ∧
      result.map Item.value = largest k.toNat (latestValues stream) := by
  have follows := feed_follows positive growing alive
  intro result
  have isSorted : result = std.sort ((new k ttlSeconds now).feed stream).minHeap := by
    simp only [result, getTopK, follows.running, getTopKInternal]
    rfl
  have perm : result.Perm ((new k ttlSeconds now).feed stream).minHeap := by
    rw [isSorted]
    exact std.perm _
  have sorted : result.Pairwise fun a b => b.value ≤ a.value := by
    rw [isSorted]
    refine (std.sorted _).imp ?_
    intro a b notLarger
    simpa only [larger, decide_eq_false_iff_not, not_lt] using notLarger
  obtain ⟨length, current, values⟩ := follows.topK perm sorted
  exact ⟨length, sorted, (perm.map Item.hostId).nodup_iff.mpr follows.linked.inverse.nodup, current,
    values⟩

def stableSort : StdSort (@larger Host κ _) where
  sort xs := xs.insertionSort fun a b => b.value ≤ a.value
  perm := perm_insertionSort _
  sorted xs := by
    have : Std.Total fun a b : Item Host κ => b.value ≤ a.value := ⟨fun a b => le_total b.value a.value⟩
    have : IsTrans (Item Host κ) fun a b => b.value ≤ a.value := ⟨fun _ _ _ ab bc => bc.trans ab⟩
    refine (pairwise_insertionSort (fun a b : Item Host κ => b.value ≤ a.value) xs).imp ?_
    intro a b descending
    simpa only [larger, decide_eq_false_iff_not, not_lt] using descending

/-- Host 1 is evicted by host 3 and comes back with a larger value. -/
theorem getTopK_exact_comeback :
    let stream : List (Update Nat Nat) :=
      [⟨0, 1, 5⟩, ⟨1000000000, 2, 7⟩, ⟨2000000000, 3, 6⟩, ⟨3000000000, 1, 9⟩]
    ((getTopK stableSort ((new 2 60 0).feed stream)).map Item.value =
      largest 2 (latestValues stream)) ∧ largest 2 (latestValues stream) = [9, 7] :=
  ⟨(@getTopK_exact _ _ _ _ 2 60 0 _ stableSort (by decide) (by decide)
    (by decide)).2.2.2.2, by decide⟩

end Processor

end Monitor.TopK
