import Monitor.TopK.Invariant

/-! # Every departure is announced once

A host can enter the heap again and again, several times within one batch, and it can leave
it by eviction, by expiry, by a smaller `k`, by `clear` and by `close`. Each way out calls the
expire callback once. The books are kept by `Balanced`: what was retained and what has come in
is what is retained now or has been announced. No order of the values is needed for that.
-/

namespace Monitor.TopK

open MinHeap List

namespace Processor

variable {Host κ : Type} [DecidableEq Host]

/-- The hosts that the second state retains and the first did not. -/
def newcomers (p q : Processor Host κ) : List Host := q.hosts.filter fun host => host ∉ p.hosts

section Entered

variable [LT κ] [DecidableLT κ]

/-- The hosts that enter while some pairs are offered, once for each time. -/
def offersEntered (now : Int) : Processor Host κ → List (Host × κ) → List Host
  | _, [] => []
  | p, item :: items =>
    p.newcomers (offer now p item.1 item.2) ++
      offersEntered now (offer now p item.1 item.2) items

/-- The hosts that enter in one call. The streaming calls are followed decision by decision:
    a host may leave in the course of such a call and enter again. -/
def stepEntered (p : Processor Host κ) : Op Host κ → List Host
  | .processStream now hostId value =>
    if p.closed then
      []
    else
      let p := { p with updateCount := p.updateCount + 1, lastUpdate := now }
      offersEntered now (p.cleanupExpired now) [(hostId, value)]
  | .processStreamBatch now items =>
    if p.closed then
      []
    else
      let p := { p with updateCount := p.updateCount + Int64.ofNat items.length, lastUpdate := now }
      offersEntered now (p.cleanupExpired now) items
  | op => p.newcomers (p.step op)

/-- The hosts that enter in a run, once for each time. -/
def entered : Processor Host κ → List (Op Host κ) → List Host
  | _, [] => []
  | p, op :: ops => p.stepEntered op ++ entered (p.step op) ops

end Entered

/-- A linked state with the callback set, later than `p`, with nothing unaccounted for. -/
structure Balanced (p q : Processor Host κ) (entered : List Host) : Prop where
  linked : Linked q
  callback : q.expireCallback = true
  announced : p.expired <+: q.expired
  count : ∀ host, entered.count host + (p.hosts.count host + p.expired.count host) =
    q.hosts.count host + q.expired.count host

variable {p q r : Processor Host κ} {entries : Multiset (Entry Host κ)} {gone : List Host}

theorem Balanced.refl (linked : Linked p) (callback : p.expireCallback = true) : Balanced p p [] :=
  ⟨linked, callback, prefix_rfl, fun _ => by rw [count_nil, Nat.zero_add]⟩

theorem Balanced.trans {first second : List Host} (before : Balanced p q first)
    (after : Balanced q r second) : Balanced p r (first ++ second) where
  linked := after.linked
  callback := after.callback
  announced := before.announced.trans after.announced
  count := by
    intro host
    have one := before.count host
    have two := after.count host
    rw [count_append]
    omega

theorem hosts_count (p : Processor Host κ) (host : Host) :
    p.hosts.count host = (p.contents.map Entry.hostId).count host := by
  rw [contents_hosts, Multiset.coe_count]

theorem newcomers_count (distinct : q.hosts.Nodup) (host : Host) :
    (p.newcomers q).count host = q.hosts.count host - p.hosts.count host := by
  have once := nodup_iff_count_le_one.mp distinct host
  by_cases known : host ∈ p.hosts
  · have retained := count_pos_iff.mpr known
    have none_ : (p.newcomers q).count host = 0 := by
      apply count_eq_zero_of_not_mem
      simp [newcomers, known]
    omega
  · rw [newcomers, count_filter (by simpa using known), count_eq_zero_of_not_mem known, Nat.sub_zero]

theorem Rebuilt.balanced (h : Rebuilt p q entries gone) (callback : p.expireCallback = true)
    (dropped : ∀ host, p.hosts.count host =
      (entries.map Entry.hostId).count host + gone.count host) : Balanced p q [] where
  linked := h.linked
  callback := by rw [h.frame, callback]
  announced := ⟨gone, h.expired.symm⟩
  count := by
    intro host
    have split_ := dropped host
    rw [hosts_count q, h.contents, h.expired, count_append, count_nil]
    omega

theorem Balanced.newcomers (h : Balanced p q []) : Balanced p q (p.newcomers q) where
  linked := h.linked
  callback := h.callback
  announced := h.announced
  count := by
    intro host
    have account := h.count host
    have more := h.announced.sublist.count_le host
    rw [count_nil] at account
    rw [newcomers_count h.linked.inverse.nodup]
    omega

theorem Rebuilt.balanced_newcomers (h : Rebuilt p q entries gone) (callback : p.expireCallback = true)
    (settled : ∀ host, max (p.hosts.count host) ((entries.map Entry.hostId).count host) =
      (entries.map Entry.hostId).count host + gone.count host) : Balanced p q (p.newcomers q) where
  linked := h.linked
  callback := by rw [h.frame, callback]
  announced := ⟨gone, h.expired.symm⟩
  count := by
    intro host
    have split_ := settled host
    rw [newcomers_count h.linked.inverse.nodup, hosts_count q, h.contents, h.expired, count_append]
    omega

omit [DecidableEq Host] in
theorem announced_eq (callback : p.expireCallback = true) (hostId : Host) :
    p.announced hostId = [hostId] := by
  rw [announced, if_pos callback]

theorem Rebuilt.balanced_root {root : Item Host κ} {rest : List (Item Host κ)}
    (h : Rebuilt p q ↑(rest.map Item.entry) (p.announced root.hostId))
    (shape : p.minHeap = root :: rest) (callback : p.expireCallback = true) : Balanced p q [] := by
  apply h.balanced callback
  intro host
  rw [hosts_count, contents_cons shape, announced_eq callback]
  simp only [Multiset.map_cons, Multiset.count_cons, Item.entry, count_singleton]
  grind

theorem dropAll_balanced (callback : p.expireCallback = true) : Balanced p p.dropAll [] := by
  apply (dropAll_rebuilt p).balanced callback
  intro host
  have each : p.hosts.flatMap p.announced = p.hosts := by
    rw [show p.announced = fun host => [host] from funext (announced_eq callback)]
    exact flatMap_singleton' _
  rw [each]
  simp

variable [LT κ] [DecidableLT κ]

theorem offer_balanced (linked : Linked p) (callback : p.expireCallback = true) (now : Int)
    (hostId : Host) (value : κ) :
    Balanced p (offer now p hostId value) (p.newcomers (offer now p hostId value)) := by
  have offered := offer_offered linked now hostId value
  generalize offer now p hostId value = q at offered ⊢
  cases offered with
  | update found same =>
    apply (updateItem_rebuilt linked found value now).balanced_newcomers callback
    intro host
    rw [hosts_count, contents_eraseIdx found]
    simp [Item.entry]
  | push absent room =>
    apply (pushItem_rebuilt linked absent).balanced_newcomers callback
    intro host
    rw [hosts_count, Multiset.map_cons, count_nil, Nat.add_zero]
    exact max_eq_right (Multiset.count_le_count_cons _ _ _)
  | @replace root rest absent full shape larger =>
    have other : root.hostId ≠ hostId := by
      apply linked.fresh absent root.entry
      rw [contents_cons shape]
      exact Multiset.mem_cons_self _ _
    apply (replaceRoot_rebuilt linked shape absent).balanced_newcomers callback
    intro host
    rw [hosts_count, contents_cons shape, announced_eq callback]
    simp only [Multiset.map_cons, Multiset.count_cons, Item.entry, count_singleton]
    grind
  | discard absent full notLarger => exact (Balanced.refl linked callback).newcomers

theorem offers_balanced (now : Int) (items : List (Host × κ)) :
    ∀ {p : Processor Host κ}, Linked p → p.expireCallback = true →
      Balanced p (items.foldl (fun p item => offer now p item.1 item.2) p)
        (offersEntered now p items) := by
  induction items with
  | nil => exact fun linked callback => .refl linked callback
  | cons item items ih =>
    intro p linked callback
    have first := offer_balanced linked callback now item.1 item.2
    exact first.trans (ih first.linked first.callback)

theorem cleanupLoop_balanced (expireTime : Int) (fuel : Nat) :
    ∀ {p : Processor Host κ}, Linked p → p.expireCallback = true →
      Balanced p (cleanupLoop expireTime fuel p) [] := by
  induction fuel with
  | zero => exact fun linked callback => .refl linked callback
  | succ fuel ih =>
    intro p linked callback
    simp only [cleanupLoop]
    cases top : p.minHeap[0]? with
    | none => exact .refl linked callback
    | some root =>
      obtain ⟨rest, shape⟩ := shape_of_root top
      by_cases old : root.timestamp < expireTime
      · simp only [if_pos old]
        have first := (dropExpired_rebuilt linked shape).balanced_root shape callback
        exact first.trans (ih first.linked first.callback)
      · simp only [if_neg old]
        exact .refl linked callback

theorem shrinkLoop_balanced (fuel : Nat) :
    ∀ {p : Processor Host κ}, 0 < p.k → Linked p → p.expireCallback = true →
      Balanced p (shrinkLoop fuel p) [] := by
  induction fuel with
  | zero => exact fun _ linked callback => .refl linked callback
  | succ fuel ih =>
    intro p pos linked callback
    simp only [shrinkLoop]
    by_cases long : p.minHeap.length > p.k
    · simp only [if_pos long]
      cases top : p.minHeap[0]? with
      | none => exact .refl linked callback
      | some root =>
        obtain ⟨rest, shape⟩ := shape_of_root top
        have more : rest ≠ [] := by
          intro empty
          rw [shape, empty, length_singleton] at long
          omega
        have rebuilt := dropRoot_rebuilt linked shape more
        have first := rebuilt.balanced_root shape callback
        exact first.trans (ih (by rwa [rebuilt.frame]) first.linked first.callback)
    · simp only [if_neg long]
      exact .refl linked callback

theorem stream_balanced (linked : Linked p) (callback : p.expireCallback = true) (now : Int)
    (items : List (Host × κ)) : Balanced p
      (items.foldl (fun p item => offer now p item.1 item.2) (p.cleanupExpired now))
      (offersEntered now (p.cleanupExpired now) items) := by
  have cleaned : Balanced p (p.cleanupExpired now) [] := cleanupLoop_balanced _ _ linked callback
  exact cleaned.trans (offers_balanced now items cleaned.linked cleaned.callback)

theorem step_balanced (linked : Linked p) (callback : p.expireCallback = true)
    (op : Op Host κ) (kept : op ≠ .setExpireCallback false) :
    Balanced p (p.step op) (p.stepEntered op) := by
  cases op with
  | processStream now hostId value =>
    simp only [step, processStream, stepEntered]
    split
    · exact .refl linked callback
    · have stream := stream_balanced
        (p := { p with updateCount := p.updateCount + 1, lastUpdate := now })
        ⟨linked.inverse, linked.indexed⟩ callback now [(hostId, value)]
      exact ⟨stream.linked, stream.callback, stream.announced, stream.count⟩
  | processStreamBatch now items =>
    simp only [step, processStreamBatch, stepEntered]
    split
    · exact .refl linked callback
    · have stream := stream_balanced
        (p := { p with updateCount := p.updateCount + Int64.ofNat items.length, lastUpdate := now })
        ⟨linked.inverse, linked.indexed⟩ callback now items
      exact ⟨stream.linked, stream.callback, stream.announced, stream.count⟩
  | setK k =>
    apply Balanced.newcomers
    simp only [step, setK]
    split
    · exact .refl linked callback
    · rename_i accepted
      have pos : 0 < k := not_le.mp fun small => accepted (.inr small)
      have shrunk := shrinkLoop_balanced (p := { p with k := k }) p.minHeap.length pos
        ⟨linked.inverse, linked.indexed⟩ callback
      exact ⟨shrunk.linked, shrunk.callback, shrunk.announced, shrunk.count⟩
  | setTtl seconds =>
    apply Balanced.newcomers
    simp only [step, setTtl]
    split
    · exact .refl linked callback
    · have same := Balanced.refl linked callback
      exact ⟨⟨linked.inverse, linked.indexed⟩, callback, same.announced, same.count⟩
  | setExpireCallback set =>
    cases set with
    | false => exact absurd rfl kept
    | true =>
      apply Balanced.newcomers
      have same := Balanced.refl linked callback
      exact ⟨⟨linked.inverse, linked.indexed⟩, rfl, same.announced, same.count⟩
  | clear | close =>
    apply Balanced.newcomers
    simp only [step, clear, close]
    split
    · exact .refl linked callback
    · have dropped := dropAll_balanced callback
      exact ⟨⟨dropped.linked.inverse, dropped.linked.indexed⟩, dropped.callback,
        dropped.announced, dropped.count⟩

theorem run_balanced (ops : List (Op Host κ)) (kept : .setExpireCallback false ∉ ops) :
    ∀ {p : Processor Host κ}, Linked p → p.expireCallback = true →
      Balanced p (p.run ops) (p.entered ops) := by
  induction ops with
  | nil => exact fun linked callback => .refl linked callback
  | cons op ops ih =>
    rw [mem_cons, not_or] at kept
    intro p linked callback
    have first := step_balanced linked callback op (Ne.symm kept.1)
    exact first.trans (ih kept.2 first.linked first.callback)

/-- With the callback set from the start and never unset, every host has entered as often as it
    has been announced, and once more while it is retained. -/
theorem entered_count_eq (k ttlSeconds now : Int) (ops : List (Op Host κ))
    (kept : .setExpireCallback false ∉ ops) (host : Host) :
    (entered ((new k ttlSeconds now).setExpireCallback true) ops).count host =
      ((((new k ttlSeconds now).setExpireCallback true).run ops).expired.count host +
        if host ∈ (((new k ttlSeconds now).setExpireCallback true).run ops).hosts
          then 1 else 0) := by
  have start : Linked ((new k ttlSeconds now : Processor Host κ).setExpireCallback true) :=
    linked_nil _ rfl (fun _ => rfl)
  have balanced := run_balanced ops kept start rfl
  have account := balanced.count host
  have once := balanced.linked.inverse.nodup.count (a := host)
  rw [← once]
  simp only [setExpireCallback, new, hosts, map_nil, count_nil] at account ⊢
  omega

/-- Host 1 enters, is evicted and enters again in one batch, and expires later. -/
theorem entered_count_eq_twice :
    (entered ((new 1 60 0 : Processor Nat Nat).setExpireCallback true)
      [.processStreamBatch 0 [(1, 5), (2, 7), (1, 9)], .processStream 90000000000 2 1]).count 1 =
        2 ∧
    (entered ((new 1 60 0 : Processor Nat Nat).setExpireCallback true)
      [.processStreamBatch 0 [(1, 5), (2, 7), (1, 9)], .processStream 90000000000 2 1]).count 1 =
      (((new 1 60 0 : Processor Nat Nat).setExpireCallback true).run
        [.processStreamBatch 0 [(1, 5), (2, 7), (1, 9)], .processStream 90000000000 2 1]
          ).expired.count 1 +
        if 1 ∈ (((new 1 60 0 : Processor Nat Nat).setExpireCallback true).run
          [.processStreamBatch 0 [(1, 5), (2, 7), (1, 9)], .processStream 90000000000 2 1]).hosts
          then 1 else 0 :=
  ⟨by decide, entered_count_eq 1 60 0 _ (by simp) 1⟩

end Processor

end Monitor.TopK
