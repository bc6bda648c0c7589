import Monitor.Models.Log

/-! # `AppendEntries` takes over a prefix of the leader's log

Against a leader log that matches, the loop of `AppendEntries` is `splice`: the
follower is untouched when it already holds the leader's first `q` entries, and
is cut to exactly those entries otherwise. Log matching, contiguous indices and
the stability under duplicated or stale deliveries all follow from that.
-/

namespace Monitor.Models

open Matching List UInt64

namespace Log

variable {α : Type} {f : Log α}

section Splice

variable [DecidableEq α] {l : Log α} {p q : Nat}

-- One turn at position `k` against a leader log `l`, on a follower that agrees with it below.
theorem appendEntry_splice {index : UInt64} {k : Nat} {entry : LogEntry α}
    (position : index.toNat = k + 1) (contiguous : f.Contiguous) (matching : f.LogMatching l)
    (next : l.entries[k]? = some entry) (lt : k < q)
    (common : f.entries.take k = l.entries.take k) (reach : k ≤ f.entries.length) :
    ∃ f', f.appendEntry index entry = some f' ∧
      f'.entries.take (k + 1) = l.entries.take (k + 1) ∧ k + 1 ≤ f'.entries.length ∧
      (f'.entries = f.entries ∨ f'.entries = l.entries.take (k + 1)) ∧
      { f' with entries := splice f'.entries l.entries q } =
        { f with entries := splice f.entries l.entries q } := by
  have grown : f.entries.take k ++ [entry] = l.entries.take (k + 1) := by
    rw [take_add_one, next, common]
    rfl
  have adjusted := slicePosition position
  simp only [appendEntry, le_iff_toNat_le, contiguous.lastIndex, position,
    contiguous.getEntry position, adjusted]
  by_cases held : k + 1 ≤ f.entries.length
  · have found : f.entries[k]? = some f.entries[k] := getElem?_eq_getElem held
    simp only [if_pos held, found]
    by_cases differs : f.entries[k].term ≠ entry.term
    · have apart : f.entries[k]? ≠ some entry := by
        rw [found]
        intro same
        exact differs (congrArg LogEntry.term (Option.some.inj same))
      rw [if_pos differs]
      refine ⟨_, rfl, ?_, ?_, .inr grown, ?_⟩
      · simp only [grown, take_take, Nat.min_self]
      · simp only [length_append, length_take, length_singleton]
        omega
      · simp only [splice_replace common next lt apart]
    · rw [if_neg differs]
      refine ⟨f, rfl, ?_, held, .inl rfl, rfl⟩
      exact matching.take_eq found next (not_not.mp differs)
  · have whole : f.entries.take k = f.entries := take_of_length_le (by omega)
    have missing : f.entries[k]? ≠ some entry := by
      rw [getElem?_eq_none (by omega)]
      exact nofun
    have replaced := splice_replace common next lt missing
    rw [whole] at grown replaced
    rw [if_neg held]
    refine ⟨_, rfl, ?_, ?_, .inr grown, ?_⟩
    · simp only [grown, take_take, Nat.min_self]
    · simp only [length_append, length_singleton]
      omega
    · simp only [replaced]

-- Each turn keeps the follower contiguous and matching, since it is either unchanged or a
-- prefix of the leader.
theorem appendLoop_splice (leader : l.Contiguous) (bounded : q ≤ l.entries.length)
    (entries : List (LogEntry α)) : ∀ (f : Log α) (i : Nat),
    entries = (l.entries.take q).drop (p + i) → f.Contiguous → f.LogMatching l →
    f.entries.take (p + i) = l.entries.take (p + i) → p + i ≤ f.entries.length →
    p + i + entries.length = q → appendLoop (ofNat p) f i entries =
      some { f with entries := splice f.entries l.entries q } := by
  induction entries with
  | nil =>
    intro f i _ _ _ common _ size
    rw [appendLoop, splice_of_agree (by rw [← size]; exact common)]
  | cons entry entries ih =>
    intro f i slice contiguous matching common reach size
    simp only [length_cons] at size
    have next : l.entries[p + i]? = some entry := by
      have head := congrArg (fun es => es[0]?) slice
      simp only [getElem?_cons_zero, getElem?_drop, Nat.add_zero,
        getElem?_take, if_pos (show p + i < q by omega)] at head
      exact head.symm
    have tail : entries = (l.entries.take q).drop (p + (i + 1)) := by
      have rest := congrArg List.tail slice
      simpa only [tail_cons, tail_drop, Nat.add_assoc] using rest
    have position : (ofNat p + ofNat i + 1).toNat = p + i + 1 := by
      have small := leader.bounded
      simp only [UInt64.toNat_add, UInt64.toNat_ofNat', UInt64.toNat_one]
      omega
    obtain ⟨f', turn, common', reach', source, same⟩ :=
      appendEntry_splice (q := q) position contiguous matching next (by omega) common reach
    have contiguous' : f'.Contiguous := by
      rcases source with unchanged | taken
      · intro j e he
        exact contiguous j e (unchanged ▸ he)
      · intro j e he
        rw [taken, getElem?_take] at he
        split at he
        · exact leader j e he
        · cases he
    have matching' : f'.LogMatching l := by
      rcases source with unchanged | taken
      · simpa only [LogMatching, unchanged] using matching
      · simpa only [LogMatching, taken] using (Matches.refl LogEntry.term l.entries).take _
    rw [appendLoop, turn, ← same]
    exact ih f' (i + 1) tail contiguous' matching' common' reach' (by omega)

theorem appendEntries_splice {prevLogTerm : UInt64} (follower : f.Contiguous)
    (leader : l.Contiguous) (matching : f.LogMatching l) (order : p ≤ q)
    (bounded : q ≤ l.entries.length) (common : f.entries.take p = l.entries.take p)
    (reach : p ≤ f.entries.length) (accepts : f.prevMatches (ofNat p) prevLogTerm = true) :
    ∃ last, f.appendEntries (ofNat p) prevLogTerm ((l.entries.take q).drop p) =
      some ((last, true), { f with entries := splice f.entries l.entries q }) := by
  have size : ((l.entries.take q).drop p).length = q - p := by
    simp only [length_drop, length_take]
    omega
  simp only [appendEntries, accepts, Bool.not_true, Bool.false_eq_true, if_false, size]
  by_cases heartbeat : q - p = 0
  · obtain rfl : p = q := by omega
    rw [if_pos heartbeat, splice_of_agree common]
    exact ⟨_, rfl⟩
  · have loop := appendLoop_splice (p := p) leader bounded ((l.entries.take q).drop p) f 0 rfl
      follower matching common reach (by omega)
    rw [if_neg heartbeat, loop]
    exact ⟨_, rfl⟩

end Splice

theorem prevMatches_iff {p : Nat} {prevLogTerm : UInt64} (contiguous : f.Contiguous)
    (small : p < 2 ^ 64) : f.prevMatches (ofNat p) prevLogTerm = true ↔
      p = 0 ∨ ∃ e, f.entries[p - 1]? = some e ∧ e.term = prevLogTerm := by
  cases p with
  | zero => simp [prevMatches]
  | succ k =>
    have position : (ofNat (k + 1)).toNat = k + 1 := toNat_ofNat_of_lt' small
    have pos : ofNat (k + 1) > 0 := by
      simp only [gt_iff_lt, UInt64.lt_iff_toNat_lt, position, UInt64.toNat_zero]
      omega
    simp only [prevMatches, if_pos pos, contiguous.getEntry position,
      Nat.add_sub_cancel, Nat.add_one_ne_zero, false_or]
    cases f.entries[k]? with
    | none => simp
    | some e => simp

/-- Replicating a leader's entries `p + 1 .. q` onto a follower, for contiguous logs that
    match each other. -/
theorem appendEntries_preserves_matching {f l : Log α} (follower : f.Contiguous)
    (leader : l.Contiguous) (matching : f.LogMatching l) {p q : Nat} (order : p ≤ q)
    (bounded : q ≤ l.entries.length) {prevLogTerm : UInt64}
    (sent : 0 < p → ∃ e, l.entries[p - 1]? = some e ∧ e.term = prevLogTerm) :
    ∃ last accepted f',
      f.appendEntries (UInt64.ofNat p) prevLogTerm ((l.entries.take q).drop p) =
        some ((last, accepted), f') ∧
      (accepted = true ↔ p = 0 ∨ ∃ e, f.entries[p - 1]? = some e ∧ e.term = prevLogTerm) ∧
      (accepted = false → f' = f) ∧
      (accepted = true →
        f'.Contiguous ∧ f'.entries.take q = l.entries.take q ∧ f'.LogMatching l ∧
        (∀ t : Log α, f.LogMatching t → l.LogMatching t → f'.LogMatching t) ∧
        (f.entries.take q = l.entries.take q → f' = f)) := by
  classical
  have small : p < 2 ^ 64 := by
    have := leader.bounded
    omega
  have check := @prevMatches_iff _ f p prevLogTerm follower small
  cases accepts : f.prevMatches (UInt64.ofNat p) prevLogTerm with
  | false =>
    rw [accepts] at check
    refine ⟨0, false, f, ?_, check, fun _ => rfl, nofun⟩
    simp only [appendEntries, accepts, Bool.not_false, if_true]
  | true =>
    rw [accepts] at check
    -- the checked entry pins the whole prefix below it
    have agreed : f.entries.take p = l.entries.take p ∧ p ≤ f.entries.length := by
      rcases check.mp rfl with rfl | ⟨e, held, sameTerm⟩
      · exact ⟨rfl, Nat.zero_le _⟩
      · rcases Nat.eq_zero_or_pos p with rfl | positive
        · exact ⟨rfl, Nat.zero_le _⟩
        · obtain ⟨e', owned, term'⟩ := sent positive
          have prefixes := matching.take_eq held owned (sameTerm.trans term'.symm)
          obtain ⟨inside, _⟩ := List.getElem?_eq_some_iff.mp held
          rw [Nat.sub_add_cancel positive] at prefixes
          exact ⟨prefixes, by omega⟩
    obtain ⟨last, result⟩ := appendEntries_splice follower leader matching order bounded
      agreed.1 agreed.2 accepts
    refine ⟨last, true, _, result, check, nofun, fun _ => ⟨?_, ?_, ?_, ?_, ?_⟩⟩
    · exact splice_forall (P := fun i (e : LogEntry α) => e.index.toNat = i + 1) q follower leader
    · exact splice_take f.entries l.entries q
    · exact Matches.splice matching (Matches.refl LogEntry.term l.entries) q
    · intro t third third'
      exact Matches.splice third third' q
    · intro agree
      simp only [splice_of_agree agree]

/-- A follower with a conflicting second entry takes over both of the leader's. -/
theorem appendEntries_preserves_matching_conflict :
    ∃ last f',
      (⟨[⟨1, 1, (), .noop⟩, ⟨1, 2, (), .command⟩], 0, 0⟩ : Log Unit).appendEntries 1 1
          [⟨2, 2, (), .noop⟩] = some ((last, true), f') ∧
      f'.Contiguous ∧ f'.entries.take 2 = [⟨1, 1, (), .noop⟩, ⟨2, 2, (), .noop⟩] ∧
      f'.LogMatching ⟨[⟨1, 1, (), .noop⟩, ⟨2, 2, (), .noop⟩], 0, 0⟩ := by
  have contiguousF : (⟨[⟨1, 1, (), .noop⟩, ⟨1, 2, (), .command⟩], 0, 0⟩ : Log Unit).Contiguous := by
    intro i e held
    match i, held with
    | 0, held => cases held; rfl
    | 1, held => cases held; rfl
  have contiguousL : (⟨[⟨1, 1, (), .noop⟩, ⟨2, 2, (), .noop⟩], 0, 0⟩ : Log Unit).Contiguous := by
    intro i e held
    match i, held with
    | 0, held => cases held; rfl
    | 1, held => cases held; rfl
  have matching : (⟨[⟨1, 1, (), .noop⟩, ⟨1, 2, (), .command⟩], 0, 0⟩ : Log Unit).LogMatching
      ⟨[⟨1, 1, (), .noop⟩, ⟨2, 2, (), .noop⟩], 0, 0⟩ := by
    intro i x y hx hy same j below
    match i, hx, hy with
    | 0, _, _ =>
      obtain rfl : j = 0 := by omega
      rfl
    | 1, hx, hy =>
      cases hx
      cases hy
      exact absurd same (by decide)
  obtain ⟨last, accepted, f', run, check, kept, taken⟩ :=
    appendEntries_preserves_matching (p := 1) (q := 2) contiguousF contiguousL matching
      (by decide) (by decide) (fun _ => ⟨_, rfl, rfl⟩)
  obtain rfl : accepted = true := check.mpr (.inr ⟨_, rfl, rfl⟩)
  obtain ⟨contiguous, same, matching, _⟩ := taken rfl
  exact ⟨last, f', run, contiguous, same, matching⟩

end Log

end Monitor.Models
