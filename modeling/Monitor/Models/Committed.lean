import Monitor.Lib.Runs
import Monitor.Models.RangeRead

/-! # Committed entries

Raft promises that a committed entry stays. The log of `models/log.go` keeps the commit
index beside the entries: `SetCommitIndex` only caps it at the last index, and neither
`Truncate` nor `AppendEntries` looks at it. The promise is kept by the callers or not at
all; `Respects` is what they owe it, call by call.
-/

namespace Monitor.Models

open Runs List UInt64

namespace Log

variable {α : Type}

inductive Call (α : Type) where
  | append (entry : LogEntry α)
  | appendEntries (prevLogIndex prevLogTerm : UInt64) (entries : List (LogEntry α))
  | setCommitIndex (index : UInt64)
  | truncate (index : UInt64)

/-- The log after a call; no result is a panic. The length of a slice is an `int`. -/
def call (l : Log α) : Call α → Option (Log α)
  | .append entry => if l.entries.length + 1 < 2 ^ 63 then some (l.append entry).2 else none
  | .appendEntries prevLogIndex prevLogTerm entries =>
    (l.appendEntries prevLogIndex prevLogTerm entries).map (·.2)
  | .setCommitIndex index => some (l.setCommitIndex index)
  | .truncate index => l.truncate index

/-- Replicated entries carry the indices that follow `prevLogIndex`. -/
def Call.Numbered : Call α → Prop
  | .appendEntries prevLogIndex _ entries => WellFormed prevLogIndex entries
  | _ => True

def CommitWithin (l : Log α) : Prop := l.commitIndex ≤ l.getLastIndex

/-- The commit index of `l'` is not behind that of `l`, and what `l` has committed is in its place. -/
structure Keeps (l l' : Log α) : Prop where
  commit : l.commitIndex ≤ l'.commitIndex
  entries : ∀ (k : Nat) e, l.entries[k]? = some e → e.index ≤ l.commitIndex →
    l'.entries[k]? = some e

/-- The index is not below the commit index, and entries at or below it are replicated with the
    terms they have. -/
def Respects (l : Log α) : Call α → Prop
  | .append _ => True
  | .appendEntries prevLogIndex prevLogTerm entries =>
    l.prevMatches prevLogIndex prevLogTerm = true →
      ∀ (k : Nat) e old, entries[k]? = some e → l.entries[prevLogIndex.toNat + k]? = some old →
        prevLogIndex.toNat + k < l.commitIndex.toNat → old.term = e.term
  | .setCommitIndex index => l.commitIndex ≤ index
  | .truncate index => l.commitIndex ≤ index

theorem Keeps.refl (l : Log α) : Keeps l l := ⟨UInt64.le_refl _, fun _ _ found _ => found⟩

theorem Keeps.trans {a b c : Log α} (first : Keeps a b) (second : Keeps b c) : Keeps a c :=
  ⟨UInt64.le_trans first.commit second.commit, fun k e found committed =>
    second.entries k e (first.entries k e found committed) (UInt64.le_trans committed first.commit)⟩

section Contiguous

variable {l l' : Log α}

theorem Contiguous.commitWithin_iff (h : l.Contiguous) :
    l.CommitWithin ↔ l.commitIndex.toNat ≤ l.entries.length := by
  rw [CommitWithin, le_iff_toNat_le, h.lastIndex]

theorem Contiguous.keeps_iff (h : l.Contiguous) (within : l.CommitWithin) :
    Keeps l l' ↔ l.commitIndex ≤ l'.commitIndex ∧
      l'.entries.take l.commitIndex.toNat = l.entries.take l.commitIndex.toNat := by
  have bound := h.commitWithin_iff.mp within
  constructor
  · intro keeps
    refine ⟨keeps.commit, ext_getElem? fun k => ?_⟩
    rw [getElem?_take, getElem?_take]
    split
    · rename_i below
      have found := getElem?_eq_getElem (show k < l.entries.length by omega)
      rw [found]
      refine keeps.entries k _ found ?_
      rw [le_iff_toNat_le, h k _ found]
      exact below
    · rfl
  · rintro ⟨commit, same⟩
    refine ⟨commit, fun k e found committed => ?_⟩
    have below : k < l.commitIndex.toNat := by
      rw [le_iff_toNat_le, h k e found] at committed
      exact committed
    have at_ := congrArg (fun entries => entries[k]?) same
    simp only [getElem?_take, if_pos below] at at_
    rw [at_, found]

theorem commit_le_length {n : Nat} (lt : n ≤ l.entries.length)
    (same : l'.entries.take n = l.entries.take n) : n ≤ l'.entries.length := by
  have size := congrArg List.length same
  simp only [length_take] at size
  omega

theorem take_extend {n k : Nat} (below : n ≤ k) (reach : k ≤ l.entries.length) (entry : LogEntry α) :
    (l.entries.take k ++ [entry]).take n = l.entries.take n := by
  have size : n ≤ (l.entries.take k).length := by
    rw [length_take]
    omega
  rw [take_append_of_le_length size, take_take, Nat.min_eq_left below]

-- The loop leaves the log alone up to the first conflict and rewrites it from there on, so the
-- first `n` entries stay exactly when there is no conflict among them.
variable {entries : List (LogEntry α)}

theorem Contiguous.appendLoop_take_iff {prevLogIndex : UInt64} {n : Nat} : ∀ {l l' : Log α} {i : Nat},
      l.Contiguous → prevLogIndex.toNat + i ≤ l.entries.length → n ≤ l.entries.length →
      (∀ (j : Nat) e, entries[j]? = some e → e.index.toNat = prevLogIndex.toNat + i + j + 1) →
      Log.appendLoop prevLogIndex l i entries = some l' → l'.commitIndex = l.commitIndex ∧
        (l'.entries.take n = l.entries.take n ↔ ∀ (j : Nat) e old, entries[j]? = some e →
            l.entries[prevLogIndex.toNat + i + j]? = some old →
            prevLogIndex.toNat + i + j < n → old.term = e.term) := by
  induction entries generalizing n with
  | nil =>
    intro l l' i _ _ _ _ loop
    cases loop
    exact ⟨rfl, iff_of_true rfl fun _ _ _ found => by cases found⟩
  | cons entry entries ih =>
    intro l l' i h reach lt numbered loop
    have number : entry.index.toNat = prevLogIndex.toNat + i + 1 := numbered 0 entry rfl
    have position := position_toNat number
    have later : ∀ (j : Nat) e, entries[j]? = some e →
        e.index.toNat = prevLogIndex.toNat + (i + 1) + j + 1 := by
      intro j e found
      have := numbered (j + 1) e found
      omega
    rcases h.appendEntry_shape position reach entry with
      ⟨old, found, same, turn⟩ | ⟨conflict, turn⟩
    · simp only [Log.appendLoop, turn] at loop
      have size := (List.getElem?_eq_some_iff.mp found).1
      obtain ⟨commit, rest⟩ := ih h (by omega) lt later loop
      refine ⟨commit, rest.trans ⟨fun agree j e other sent held below => ?_,
        fun agree j e other sent held below => ?_⟩⟩
      · cases j with
        | zero =>
          cases sent
          cases found.symm.trans held
          exact same
        | succ j =>
          have shifted : prevLogIndex.toNat + (i + 1) + j = prevLogIndex.toNat + i + (j + 1) := by
            omega
          exact agree j e other sent (shifted ▸ held) (shifted ▸ below)
      · have shifted : prevLogIndex.toNat + i + (j + 1) = prevLogIndex.toNat + (i + 1) + j := by
          omega
        exact agree (j + 1) e other sent (shifted ▸ held) (shifted ▸ below)
    · simp only [Log.appendLoop, turn] at loop
      have extended := h.extend reach number
      have size : (l.entries.take (prevLogIndex.toNat + i) ++ [entry]).length =
          prevLogIndex.toNat + i + 1 := by simp [reach]
      -- nothing after this turn reaches back to the new end
      have stays : l'.commitIndex = l.commitIndex ∧ ∀ m ≤ prevLogIndex.toNat + i + 1,
          l'.entries.take m = (l.entries.take (prevLogIndex.toNat + i) ++ [entry]).take m := by
        constructor
        · exact (ih (n := 0) extended size.ge (Nat.zero_le _) later loop).1
        · intro m small
          refine (ih (n := m) extended size.ge (small.trans size.ge) later loop).2.mpr ?_
          intro j e other _ _ below
          omega
      refine ⟨stays.1, ?_⟩
      by_cases above : n ≤ prevLogIndex.toNat + i
      · refine iff_of_true ?_ fun j _ _ _ _ below => by omega
        rw [stays.2 n (by omega), take_extend above reach]
      · refine iff_of_false (fun same => ?_) fun agree => ?_
        · have old := getElem?_eq_getElem (show prevLogIndex.toNat + i < l.entries.length by omega)
          have kept := congrArg (fun entries => entries[prevLogIndex.toNat + i]?) same
          have new := congrArg (fun entries => entries[prevLogIndex.toNat + i]?)
            (stays.2 (prevLogIndex.toNat + i + 1) le_rfl)
          simp only [getElem?_take, if_pos (show prevLogIndex.toNat + i < n by omega), old] at kept
          simp [reach, kept] at new
          exact conflict _ old (by rw [new])
        · have old := getElem?_eq_getElem (show prevLogIndex.toNat + i < l.entries.length by omega)
          exact conflict _ old (agree 0 entry _ rfl old (by omega))

theorem Contiguous.appendEntries_take_iff (h : l.Contiguous) (within : l.CommitWithin)
    {prevLogIndex prevLogTerm : UInt64}
    (numbered : WellFormed prevLogIndex entries) {result : UInt64 × Bool}
    (returned : l.appendEntries prevLogIndex prevLogTerm entries = some (result, l')) :
    l'.commitIndex = l.commitIndex ∧
      (l'.entries.take l.commitIndex.toNat = l.entries.take l.commitIndex.toNat ↔
        l.Respects (.appendEntries prevLogIndex prevLogTerm entries)) := by
  have lt := h.commitWithin_iff.mp within
  unfold Log.appendEntries at returned
  cases accepts : l.prevMatches prevLogIndex prevLogTerm with
  | false =>
    simp only [accepts, Bool.not_false, if_true] at returned
    cases returned
    exact ⟨rfl, iff_of_true rfl fun yes => by rw [accepts] at yes; cases yes⟩
  | true =>
    simp only [accepts, Bool.not_true, Bool.false_eq_true, if_false] at returned
    split at returned
    · rename_i heartbeat
      cases returned
      refine ⟨rfl, iff_of_true rfl fun _ j e _ sent => ?_⟩
      rw [length_eq_zero_iff.mp heartbeat] at sent
      cases sent
    · cases loop : Log.appendLoop prevLogIndex l 0 entries with
      | none =>
        rw [loop] at returned
        cases returned
      | some after =>
        rw [loop] at returned
        cases returned
        have taken := Contiguous.appendLoop_take_iff h (h.prev_le accepts) lt
          (fun j e found => by simpa using numbered j e found) loop
        refine ⟨taken.1, taken.2.trans ⟨fun agree _ => agree, fun agree => agree accepts⟩⟩

end Contiguous

variable {l l' : Log α} {c : Call α}

theorem Contiguous.call (h : l.Contiguous) (numbered : c.Numbered)
    (returned : l.call c = some l') : l'.Contiguous := by
  cases c with
  | append entry =>
    simp only [Log.call] at returned
    split at returned
    · rename_i room
      cases returned
      exact h.append room entry
    · cases returned
  | appendEntries prevLogIndex prevLogTerm entries =>
    obtain ⟨result, after, done, contiguous⟩ := h.appendEntries prevLogTerm numbered
    simp only [Log.call, done, Option.map_some] at returned
    cases returned
    exact contiguous
  | setCommitIndex index =>
    cases returned
    exact h
  | truncate index =>
    simp only [Log.call, h.truncate] at returned
    cases returned
    exact h.take index.toNat

theorem Contiguous.call_keeps_iff (h : l.Contiguous) (within : l.CommitWithin)
    (numbered : c.Numbered) (returned : l.call c = some l') :
    (l'.CommitWithin ∧ Keeps l l') ↔ l.Respects c := by
  have lt := h.commitWithin_iff.mp within
  have after := h.call numbered returned
  rw [after.commitWithin_iff, h.keeps_iff within]
  cases c with
  | append entry =>
    simp only [Log.call] at returned
    split at returned
    · cases returned
      refine iff_of_true ⟨?_, UInt64.le_refl _, ?_⟩ trivial
      · rw [append_length]
        exact Nat.le_succ_of_le lt
      · exact take_append_of_le_length lt
    · cases returned
  | appendEntries prevLogIndex prevLogTerm entries =>
    obtain ⟨⟨result, m⟩, done, rfl⟩ := Option.map_eq_some_iff.mp returned
    obtain ⟨commit, same⟩ := h.appendEntries_take_iff within numbered done
    rw [← same, commit]
    exact ⟨fun kept => kept.2.2, fun same =>
      ⟨commit_le_length lt same, UInt64.le_refl _, same⟩⟩
  | setCommitIndex index =>
    cases returned
    simp only [Log.setCommitIndex, Respects, and_true]
    rw [← h.lastIndex, ← le_iff_toNat_le]
    split
    · rename_i beyond
      exact iff_of_true ⟨UInt64.le_refl _, within⟩ (UInt64.le_trans within (UInt64.le_of_lt beyond))
    · rename_i inside'
      exact and_iff_right (UInt64.not_lt.mp inside')
  | truncate index =>
    simp only [Log.call, h.truncate, Option.some.injEq] at returned
    subst returned
    simp only [Respects, le_iff_toNat_le, take_take, length_take]
    constructor
    · rintro ⟨short, _⟩
      omega
    · intro covered
      refine ⟨by omega, le_rfl, ?_⟩
      rw [Nat.min_eq_left covered]

/-- In a run of calls whose replicated entries are numbered by their places, the commit index stays
    within the log and never decreases and what is committed never changes, exactly when every
    call respects what is committed. -/
theorem committed_lasting_iff (calls : List (Call α)) (numbered : ∀ c ∈ calls, c.Numbered) :
    Throughout call CommitWithin newLog calls ∧ Ever call Keeps newLog calls ↔
      EachStep call Respects newLog calls :=
  lasting_iff Contiguous Keeps.refl Keeps.trans
    (fun _ _ _ numbered h _ returned => h.call numbered returned)
    (fun _ _ _ numbered h within returned => h.call_keeps_iff within numbered returned)
    calls numbered contiguous_newLog (UInt64.le_refl 0)

/-- A leader's first entries, committed one after the other. -/
def replication : List (Call Unit) :=
  [.append ⟨1, 0, (), .command⟩, .append ⟨1, 0, (), .command⟩, .setCommitIndex 1,
    .appendEntries 1 1 [⟨2, 2, (), .noop⟩], .setCommitIndex 7, .truncate 2]

theorem replication_numbered : ∀ c ∈ replication, c.Numbered := by
  intro c mem
  simp only [replication, mem_cons, not_mem_nil, or_false] at mem
  rcases mem with rfl | rfl | rfl | rfl | rfl | rfl
  · trivial
  · trivial
  · trivial
  · intro i e found
    cases i with
    | zero =>
      cases found
      rfl
    | succ i => cases found
  · trivial
  · trivial

theorem committed_lasting_iff_replication :
    Throughout call CommitWithin newLog replication ∧ Ever call Keeps newLog replication := by
  refine (committed_lasting_iff replication replication_numbered).mpr fun _ taken => ⟨trivial, ?_⟩
  cases taken
  refine fun _ taken => ⟨trivial, ?_⟩
  cases taken
  refine fun _ taken => ⟨(by decide : (0 : UInt64) ≤ 1), ?_⟩
  cases taken
  refine fun _ taken => ⟨fun _ k e old _ _ committed => ?_, ?_⟩
  · exact absurd committed (Nat.not_lt.mpr (Nat.le_add_right 1 k))
  · cases taken
    refine fun _ taken => ⟨(by decide : (1 : UInt64) ≤ 7), ?_⟩
    cases taken
    exact fun _ _ => ⟨(by decide : (2 : UInt64) ≤ 2), trivial⟩

def twoCommitted : List (Call Unit) :=
  [.append ⟨1, 0, (), .command⟩, .append ⟨1, 0, (), .command⟩, .setCommitIndex 2]

/-- One of the calls that may follow lowers the commit index, one takes a committed entry away,
    and one replaces it. -/
theorem twoCommitted_not_lasting :
    twoCommitted.foldlM call newLog =
        some ⟨[⟨1, 1, (), .command⟩, ⟨1, 2, (), .command⟩], 2, 0⟩ ∧
      ¬ Ever call Keeps newLog (twoCommitted ++ [.setCommitIndex 1]) ∧
      ¬ Ever call Keeps newLog (twoCommitted ++ [.truncate 1]) ∧
      ¬ Throughout call CommitWithin newLog (twoCommitted ++ [.truncate 1]) ∧
      ¬ Ever call Keeps newLog (twoCommitted ++ [.appendEntries 1 1 [⟨2, 2, (), .noop⟩]]) := by
  have reached : twoCommitted.foldlM call newLog =
      some ⟨[⟨1, 1, (), .command⟩, ⟨1, 2, (), .command⟩], 2, 0⟩ := by decide
  have cut : (twoCommitted ++ [Call.truncate 1]).foldlM call newLog =
      some ⟨[⟨1, 1, (), .command⟩], 2, 0⟩ := by decide
  have second : (2 : UInt64) ≤ 2 := UInt64.le_refl 2
  refine ⟨reached, ?_, ?_, ?_, ?_⟩
  · exact not_ever reached rfl fun keeps => absurd keeps.commit (by decide)
  · exact not_ever reached rfl fun keeps =>
      absurd (keeps.entries 1 ⟨1, 2, (), .command⟩ rfl second) (by decide)
  · exact not_throughout cut fun within => absurd (show (2 : UInt64) ≤ 1 from within) (by decide)
  · exact not_ever reached rfl fun keeps =>
      absurd (keeps.entries 1 ⟨1, 2, (), .command⟩ rfl second) (by decide)

end Log

end Monitor.Models
