import Monitor.Models.Log

/-! # Compaction of the Raft log

`Snapshot` of `models/log.go` writes the first entries to a file and cuts them off the
slice. `getEntry` and `AppendEntries` go on to use an index as a position in the slice,
which it is only while nothing has been cut off.
-/

namespace Monitor.Models

open List UInt64

/-- The file operations of `Snapshot` before the log is cut. -/
inductive SnapshotStage where
  | marshal
  | mkdirAll
  | writeFile
  | rename
  deriving DecidableEq, Repr

inductive SnapshotError where
  | beyond (snapshotIndex lastIndex : UInt64)
  | failed (stage : SnapshotStage)
  | save
  deriving DecidableEq, Repr

namespace Log

variable {α : Type}

def newLog : Log α := ⟨[], 0, 0⟩

/-- `Snapshot`, with the stage at which writing the file fails and whether saving the log fails.
    No result is a cut behind the end of the entries, which only an unnumbered log allows: the call fails
    before it drops the entries, or panics. -/
def snapshot (l : Log α) (snapshotIndex : UInt64) (failing : Option SnapshotStage)
    (saveFails : Bool) : Option (Option SnapshotError × Log α) :=
  if snapshotIndex > l.getLastIndex then
    some (some (.beyond snapshotIndex l.getLastIndex), l)
  else if l.entries.length < snapshotIndex.toNat then
    none
  else
    match failing with
    | some stage => some (some (.failed stage), l)
    | none =>
      some (if saveFails then some .save else none,
        { l with entries := l.entries.drop snapshotIndex.toNat })

/-- Entries sent behind `prevLogIndex` carry the indices that follow it. -/
def WellFormed (prevLogIndex : UInt64) (entries : List (LogEntry α)) : Prop :=
  ∀ (i : Nat) e, entries[i]? = some e → e.index.toNat = prevLogIndex.toNat + i + 1

/-- The logs that `Append` and well-formed `AppendEntries` calls build. The length of a slice is
    an `int`. -/
inductive Built : Log α → Prop where
  | new : Built newLog
  | append {l : Log α} (entry : LogEntry α) : Built l → l.entries.length + 1 < 2 ^ 63 →
      Built (l.append entry).2
  | appendEntries {l l' : Log α} {prevLogIndex prevLogTerm : UInt64} {entries : List (LogEntry α)}
      {result : UInt64 × Bool} : Built l → WellFormed prevLogIndex entries →
      l.appendEntries prevLogIndex prevLogTerm entries = some (result, l') → Built l'

inductive Request (α : Type) where
  | append (entry : LogEntry α)
  | appendEntries (prevLogIndex prevLogTerm : UInt64) (entries : List (LogEntry α))

/-- `l'` shows what `l` shows above index `s`. -/
structure SameAbove (s : UInt64) (l l' : Log α) : Prop where
  entry : ∀ j, s < j → l'.getEntry j = l.getEntry j
  last : l'.getLastIndex = l.getLastIndex
  next : ∀ e, (l'.append e).1 = l.getLastIndex + 1

/-- `l'` goes through later calls as `l` does, and neither panics. -/
def Transparent (s : UInt64) : List (Request α) → Log α → Log α → Prop
  | [], l, l' => SameAbove s l l'
  | .append entry :: later, l, l' =>
    SameAbove s l l' ∧ (l.entries.length + 1 < 2 ^ 63 → (l'.append entry).1 = (l.append entry).1 ∧
        Transparent s later (l.append entry).2 (l'.append entry).2)
  | .appendEntries prevLogIndex prevLogTerm entries :: later, l, l' =>
    SameAbove s l l' ∧ (s ≤ prevLogIndex → WellFormed prevLogIndex entries →
      ∃ result m m', l.appendEntries prevLogIndex prevLogTerm entries = some (result, m) ∧
        l'.appendEntries prevLogIndex prevLogTerm entries = some (result, m') ∧
        Transparent s later m m')

theorem contiguous_newLog : (newLog : Log α).Contiguous := fun _ _ found => nomatch found

variable {l : Log α} {k : Nat} {prevLogIndex : UInt64} {entry : LogEntry α}

theorem Contiguous.extend (h : l.Contiguous) (reach : k ≤ l.entries.length) (index : entry.index.toNat = k + 1) :
    ({ l with entries := l.entries.take k ++ [entry] } : Log α).Contiguous := by
  intro i e found
  have size : (l.entries.take k).length = k := by simp [reach]
  by_cases below : i < k
  · simp only [getElem?_append_left (by omega : i < (l.entries.take k).length),
      getElem?_take, if_pos below] at found
    exact h i e found
  · simp only [getElem?_append_right (by omega : (l.entries.take k).length ≤ i), size] at found
    have here : i - k = 0 := by
      by_contra beyond
      simp [getElem?_eq_none (show [entry].length ≤ i - k by simp; omega)] at found
    simp only [here, getElem?_cons_zero, Option.some.injEq] at found
    subst found
    omega

theorem append_index (l : Log α) (entry : LogEntry α) : (l.append entry).1 = l.getLastIndex + 1 := by
  unfold append getLastIndex
  cases l.entries.getLast? with
  | none => rfl
  | some e => rfl

theorem Contiguous.append (h : l.Contiguous) (room : l.entries.length + 1 < 2 ^ 63)
    (entry : LogEntry α) : (l.append entry).2.Contiguous := by
  have number : (l.append entry).1.toNat = l.entries.length + 1 := by
    rw [append_index, UInt64.toNat_add, h.lastIndex, UInt64.toNat_one, Nat.mod_eq_of_lt (by omega)]
  have shape : (l.append entry).2 =
      { l with entries := l.entries.take l.entries.length ++
        [{ entry with index := (l.append entry).1 }] } := by
    simp only [take_length]
    rfl
  rw [shape]
  exact h.extend le_rfl number

/-- One turn at position `k`, which the log reaches: the entry is there already, or the log is cut
    and continued with it. -/
theorem Contiguous.appendEntry_shape (h : l.Contiguous) {index : UInt64}
    (position : index.toNat = k + 1) (reach : k ≤ l.entries.length) (entry : LogEntry α) :
    (∃ old, l.entries[k]? = some old ∧ old.term = entry.term ∧ l.appendEntry index entry = some l) ∨
      ((∀ old, l.entries[k]? = some old → old.term ≠ entry.term) ∧ l.appendEntry index entry =
          some { l with entries := l.entries.take k ++ [entry] }) := by
  have adjusted := slicePosition position
  unfold Log.appendEntry
  simp only [le_iff_toNat_le, h.lastIndex, position, h.getEntry position, adjusted]
  cases found : l.entries[k]? with
  | none =>
    have missing := List.getElem?_eq_none_iff.mp found
    right
    rw [if_neg (by omega), take_of_length_le missing]
    exact ⟨fun _ none_ => (by cases none_), rfl⟩
  | some old =>
    have lt := (List.getElem?_eq_some_iff.mp found).1
    rw [if_pos (by omega)]
    by_cases same : old.term = entry.term
    · left
      exact ⟨old, rfl, same, by simp only [same, ne_eq, not_true_eq_false, if_false]⟩
    · right
      refine ⟨fun _ some_ => ?_, if_pos same⟩
      cases some_
      exact same

theorem Contiguous.appendEntry (h : l.Contiguous) {index : UInt64}
    (position : index.toNat = k + 1) (reach : k ≤ l.entries.length)
    (number : entry.index.toNat = k + 1) :
    ∃ l', l.appendEntry index entry = some l' ∧ l'.Contiguous ∧ k + 1 ≤ l'.entries.length := by
  rcases h.appendEntry_shape position reach entry with ⟨old, found, _, turn⟩ | ⟨_, turn⟩
  · exact ⟨l, turn, h, (List.getElem?_eq_some_iff.mp found).1⟩
  · exact ⟨_, turn, h.extend reach number, by simp [reach]⟩

theorem position_toNat {entry : LogEntry α} {i : Nat}
    (number : entry.index.toNat = prevLogIndex.toNat + i + 1) :
    (prevLogIndex + ofNat i + 1).toNat = prevLogIndex.toNat + i + 1 := by
  have bound := entry.index.toNat_lt
  simp only [UInt64.toNat_add, UInt64.toNat_ofNat', UInt64.toNat_one]
  omega

variable {entries : List (LogEntry α)}

theorem Contiguous.appendLoop :
    ∀ {l : Log α} {i : Nat}, l.Contiguous → prevLogIndex.toNat + i ≤ l.entries.length →
      (∀ (j : Nat) e, entries[j]? = some e → e.index.toNat = prevLogIndex.toNat + i + j + 1) →
      ∃ l', appendLoop prevLogIndex l i entries = some l' ∧ l'.Contiguous := by
  induction entries with
  | nil =>
    intro l i h _ _
    exact ⟨l, rfl, h⟩
  | cons entry entries ih =>
    intro l i h reach numbered
    have number : entry.index.toNat = prevLogIndex.toNat + i + 1 := numbered 0 entry rfl
    have position := position_toNat number
    obtain ⟨l', turn, contiguous, further⟩ := h.appendEntry position reach number
    obtain ⟨l'', rest, contiguous'⟩ := ih (i := i + 1) contiguous (by omega) fun j e found => by
      have := numbered (j + 1) e found
      omega
    exact ⟨l'', by simp only [Log.appendLoop, turn, rest], contiguous'⟩

theorem Contiguous.prev_le (h : l.Contiguous) {prevLogTerm : UInt64}
    (accepts : l.prevMatches prevLogIndex prevLogTerm = true) : prevLogIndex.toNat ≤ l.entries.length := by
  by_contra beyond
  have position : prevLogIndex.toNat = (prevLogIndex.toNat - 1) + 1 := by omega
  have after : prevLogIndex > 0 := by
    simp only [gt_iff_lt, UInt64.lt_iff_toNat_lt, UInt64.toNat_zero]
    omega
  have missing := h.getEntry position
  rw [getElem?_eq_none (by omega)] at missing
  simp [prevMatches, after, missing] at accepts

theorem Contiguous.appendEntries (h : l.Contiguous)
    (prevLogTerm : UInt64) (wellFormed : WellFormed prevLogIndex entries) :
    ∃ result l', l.appendEntries prevLogIndex prevLogTerm entries = some (result, l') ∧
      l'.Contiguous := by
  unfold Log.appendEntries
  cases accepts : l.prevMatches prevLogIndex prevLogTerm with
  | false => exact ⟨_, l, rfl, h⟩
  | true =>
    simp only [Bool.not_true, Bool.false_eq_true, if_false]
    split
    · exact ⟨_, l, rfl, h⟩
    · obtain ⟨l', loop, contiguous⟩ := h.appendLoop (i := 0) (h.prev_le accepts) fun j e found => by
        simpa using wellFormed j e found
      simp only [loop]
      exact ⟨_, l', rfl, contiguous⟩

theorem Built.contiguous (built : Built l) : l.Contiguous := by
  induction built with
  | new => exact contiguous_newLog
  | append entry _ room ih => exact ih.append room entry
  | appendEntries _ wellFormed result ih =>
    obtain ⟨_, l', returned, contiguous⟩ := ih.appendEntries _ wellFormed
    rw [returned] at result
    cases result
    exact contiguous

theorem transparent_refl (s : UInt64) (later : List (Request α)) :
    ∀ {l : Log α}, l.Contiguous → Transparent s later l l := by
  induction later with
  | nil =>
    intro l _
    exact ⟨fun _ _ => rfl, rfl, append_index l⟩
  | cons request later ih =>
    intro l h
    have same : SameAbove s l l := ⟨fun _ _ => rfl, rfl, append_index l⟩
    cases request with
    | append entry => exact ⟨same, fun room => ⟨rfl, ih (h.append room entry)⟩⟩
    | appendEntries prevLogIndex prevLogTerm entries =>
      refine ⟨same, fun _ wellFormed => ?_⟩
      obtain ⟨result, m, returned, contiguous⟩ := h.appendEntries prevLogTerm wellFormed
      exact ⟨result, m, m, returned, returned, ih contiguous⟩

theorem getEntry_cut (h : l.Contiguous) {s : Nat} (lt : s < l.entries.length)
    {j : UInt64} (position : j.toNat = k + 1) :
    ({ l with entries := l.entries.drop s } : Log α).getEntry j =
      if l.entries.length < k + 1 then none else l.entries[s + k]? := by
  have last : ({ l with entries := l.entries.drop s } : Log α).getLastIndex.toNat =
      l.entries.length := by
    rw [← h.lastIndex]
    simp only [getLastIndex, getLast?_drop, if_neg (show ¬ l.entries.length ≤ s by omega)]
  have adjusted := slicePosition position
  have nonzero : j ≠ 0 := by
    rintro rfl
    simp at position
  simp only [Log.getEntry, nonzero, false_or, gt_iff_lt, lt_iff_toNat_lt, last, position,
    adjusted]
  split
  · rfl
  · split
    · rename_i beyond
      simp only [length_drop] at beyond
      exact (getElem?_eq_none (by omega)).symm
    · simp only [getElem?_drop]

theorem not_sameAbove_cut (h : l.Contiguous) {s : UInt64} (some_ : s ≠ 0)
    (lt : s.toNat ≤ l.entries.length) :
    ¬ SameAbove s l { l with entries := l.entries.drop s.toNat } := by
  intro same
  have pos : 0 < s.toNat := by
    rcases Nat.eq_zero_or_pos s.toNat with zero | pos
    · exact absurd (UInt64.toNat_inj.mp zero) some_
    · exact pos
  rcases Nat.eq_or_lt_of_le lt with all | fewer
  · have last := congrArg UInt64.toNat same.last
    rw [h.lastIndex] at last
    simp [getLastIndex, all] at last
    omega
  · have size := h.bounded
    have position : (ofNat l.entries.length).toNat = (l.entries.length - 1) + 1 := by
      rw [toNat_ofNat_of_lt' size]
      omega
    have above : s < ofNat l.entries.length := by
      rw [lt_iff_toNat_lt, toNat_ofNat_of_lt' size]
      exact fewer
    have found := same.entry _ above
    rw [getEntry_cut h fewer position, h.getEntry position,
      getElem?_eq_getElem (show l.entries.length - 1 < l.entries.length by omega),
      if_neg (by omega), getElem?_eq_none (by omega)] at found
    cases found

/-- Compacting a built log up to an index that is in it never panics, and nobody can tell the
    result from the old log exactly when the index is zero or the snapshot was not written. -/
theorem snapshot_transparent_iff {l : Log α} (built : Built l) {s : UInt64}
    (within : s ≤ l.getLastIndex) (failing : Option SnapshotStage) (saveFails : Bool) :
    ∃ err l', l.snapshot s failing saveFails = some (err, l') ∧
      ((∀ later, Transparent s later l l') ↔ s = 0 ∨ failing ≠ none) := by
  have h := built.contiguous
  have inside : s.toNat ≤ l.entries.length := by
    rw [← h.lastIndex]
    exact within
  have notBeyond : ¬ s > l.getLastIndex := UInt64.not_lt.mpr within
  unfold snapshot
  simp only [if_neg notBeyond, if_neg (show ¬ l.entries.length < s.toNat by omega)]
  cases failing with
  | some stage =>
    exact ⟨_, l, rfl, iff_of_true (fun later => transparent_refl s later h) (.inr nofun)⟩
  | none =>
    refine ⟨_, _, rfl, ?_⟩
    constructor
    · intro transparent
      by_contra cut
      exact not_sameAbove_cut h (fun zero => cut (.inl zero)) inside (transparent [])
    · intro nothing
      cases nothing with
      | inl zero =>
        subst zero
        exact fun later => transparent_refl 0 later h
      | inr failed => exact absurd rfl failed

def fourEntries : Log Unit :=
  ⟨[⟨1, 1, (), .command⟩, ⟨1, 2, (), .command⟩, ⟨1, 3, (), .command⟩, ⟨1, 4, (), .command⟩], 0, 0⟩

theorem fourEntries_built : Built fourEntries :=
  let entry : LogEntry Unit := ⟨1, 0, (), .command⟩
  (((Built.new.append entry (by decide)).append entry (by decide)).append entry (by decide)).append
    entry (by decide)

/-- A snapshot at 2 is transparent when the file cannot be written, and is not when it succeeds. -/
theorem snapshot_transparent_iff_two :
    (∃ err l', fourEntries.snapshot 2 (some .writeFile) false = some (err, l') ∧
        ∀ later, Transparent 2 later fourEntries l') ∧
      ∃ err l', fourEntries.snapshot 2 none false = some (err, l') ∧
        ¬ ∀ later, Transparent 2 later fourEntries l' := by
  constructor
  · obtain ⟨err, l', taken, transparent_iff⟩ :=
      snapshot_transparent_iff fourEntries_built (s := 2) (by decide) (some .writeFile) false
    exact ⟨err, l', taken, transparent_iff.mpr (.inr nofun)⟩
  · obtain ⟨err, l', taken, transparent_iff⟩ :=
      snapshot_transparent_iff fourEntries_built (s := 2) (by decide) none false
    exact ⟨err, l', taken, transparent_iff.not.mpr (by decide)⟩

/-- The four entries cut at 1: the last one is not found, and replicating the other three
    again panics. -/
theorem snapshot_hides_last :
    ∃ l', Built fourEntries ∧ fourEntries.snapshot 1 none false = some (none, l') ∧
      l'.getEntry 4 = none ∧ (fourEntries.getEntry 4).isSome = true ∧
      l'.appendEntries 1 1 (fourEntries.entries.drop 1) = none ∧
      ¬ Transparent 1 [] fourEntries l' := by
  refine ⟨_, fourEntries_built, rfl, by decide, by decide, by decide, fun same => ?_⟩
  exact absurd (same.entry 4 (by decide)) (by decide)

end Log

end Monitor.Models
