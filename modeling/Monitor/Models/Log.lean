import Monitor.Lib.Matching

/-! # The Raft log of the broker

`Log` of `models/log.go`: an append-only slice of entries addressed by 1-based
indices. Indices and terms are `uint64`. The log file is left out: `save` only
prints its errors, and nothing reads the file back after `NewLog`.
-/

namespace Monitor.Models

open Matching

/-- `LogType`. -/
inductive LogType where
  | command
  | configuration
  | noop
  deriving DecidableEq, Repr

structure LogEntry (α : Type) where
  term : UInt64
  index : UInt64
  command : α
  type : LogType
  deriving DecidableEq, Repr

structure Log (α : Type) where
  entries : List (LogEntry α)
  commitIndex : UInt64
  lastApplied : UInt64
  deriving DecidableEq, Repr

namespace Log

variable {α : Type}

def getLastIndex (l : Log α) : UInt64 :=
  match l.entries.getLast? with
  | none => 0
  | some e => e.index

/-- A nil pointer is `none`. -/
def getEntry (l : Log α) (index : UInt64) : Option (LogEntry α) :=
  if index = 0 ∨ index > l.getLastIndex then
    none
  else
    let adjustedIndex := index - 1
    if adjustedIndex.toNat ≥ l.entries.length then none else l.entries[adjustedIndex.toNat]?

def append (l : Log α) (entry : LogEntry α) : UInt64 × Log α :=
  let index :=
    match l.entries.getLast? with
    | some e => e.index + 1
    | none => 1
  (index, { l with entries := l.entries ++ [{ entry with index := index }] })

/-- One turn of the loop of `AppendEntries`; `none` is the panic of reading the term of a
    missing entry. -/
def appendEntry (l : Log α) (index : UInt64) (entry : LogEntry α) : Option (Log α) :=
  if index ≤ l.getLastIndex then
    match l.getEntry index with
    | none => none
    | some existing =>
      if existing.term ≠ entry.term then
        some { l with entries := l.entries.take (index - 1).toNat ++ [entry] }
      else
        some l
  else
    some { l with entries := l.entries ++ [entry] }

def appendLoop (prevLogIndex : UInt64) (l : Log α) (i : Nat) :
    List (LogEntry α) → Option (Log α)
  | [] => some l
  | entry :: entries =>
    match l.appendEntry (prevLogIndex + UInt64.ofNat i + 1) entry with
    | none => none
    | some l' => appendLoop prevLogIndex l' (i + 1) entries

/-- Whether the entry before the new ones is the one the leader has there. -/
def prevMatches (l : Log α) (prevLogIndex prevLogTerm : UInt64) : Bool :=
  if prevLogIndex > 0 then
    match l.getEntry prevLogIndex with
    | none => false
    | some prevEntry => prevEntry.term == prevLogTerm
  else
    true

def appendEntries (l : Log α) (prevLogIndex prevLogTerm : UInt64) (entries : List (LogEntry α)) :
    Option ((UInt64 × Bool) × Log α) :=
  if !l.prevMatches prevLogIndex prevLogTerm then
    some ((0, false), l)
  else if entries.length = 0 then
    some ((l.getLastIndex, true), l)
  else
    match appendLoop prevLogIndex l 0 entries with
    | none => none
    | some l' => some ((l'.getLastIndex, true), l')

/-- What `GetEntries` comes to: a capacity that is no `int` panics, and a counter that wraps
    around never passes the bound. -/
inductive ReadResult (α : Type) where
  | returned (entries : List (LogEntry α))
  | panic
  | running
  deriving DecidableEq

/-- The loop of `GetEntries`, for so many iterations. -/
def readLoop (l : Log α) (endIndex : UInt64) : Nat → UInt64 → List (LogEntry α) → ReadResult α
  | iterations, i, result =>
    if i ≤ endIndex then
      match iterations with
      | 0 => .running
      | iterations + 1 =>
        readLoop l endIndex iterations (i + 1)
          (match l.getEntry i with
            | some entry => result ++ [entry]
            | none => result)
    else
      .returned result

def getEntries (l : Log α) (iterations : Nat) (startIndex endIndex : UInt64) : ReadResult α :=
  if startIndex > l.getLastIndex then
    .returned []
  else
    let endIndex := if endIndex > l.getLastIndex then l.getLastIndex else endIndex
    let capacity := endIndex - startIndex + 1
    if 2 ^ 63 ≤ capacity.toNat then
      .panic
    else
      l.readLoop endIndex iterations startIndex []

def setCommitIndex (l : Log α) (index : UInt64) : Log α :=
  { l with commitIndex := if index > l.getLastIndex then l.getLastIndex else index }

/-- No result is a cut behind the end of the entries, which only an unnumbered log allows: up to the
    capacity the slice expression brings back what the array held, and above it panics. -/
def truncate (l : Log α) (index : UInt64) : Option (Log α) :=
  if index ≥ l.getLastIndex then
    some l
  else if l.entries.length < index.toNat then
    none
  else
    some { l with entries := l.entries.take index.toNat }

/-- The entry at position `i`, counted from one, carries index `i`. -/
def Contiguous (l : Log α) : Prop :=
  ∀ (i : Nat) e, l.entries[i]? = some e → e.index.toNat = i + 1

/-- Log matching: the same index and term only occur with the same entry and prefix. -/
def LogMatching (f l : Log α) : Prop :=
  Matches LogEntry.term f.entries l.entries

theorem Contiguous.lastIndex {l : Log α} (h : l.Contiguous) :
    l.getLastIndex.toNat = l.entries.length := by
  simp only [getLastIndex, List.getLast?_eq_getElem?]
  cases last : l.entries[l.entries.length - 1]? with
  | none =>
    have empty := List.getElem?_eq_none_iff.mp last
    simp only [UInt64.toNat_zero]
    omega
  | some e =>
    obtain ⟨lt, _⟩ := List.getElem?_eq_some_iff.mp last
    have index := h _ e last
    change e.index.toNat = l.entries.length
    omega

theorem Contiguous.bounded {l : Log α} (h : l.Contiguous) : l.entries.length < 2 ^ 64 := by
  rw [← h.lastIndex]
  exact l.getLastIndex.toNat_lt

theorem slicePosition {index : UInt64} {k : Nat} (position : index.toNat = k + 1) :
    (index - 1).toNat = k := by
  have pos : (1 : UInt64) ≤ index := by
    simp only [UInt64.le_iff_toNat_le, UInt64.toNat_one]
    omega
  simp only [UInt64.toNat_sub_of_le _ _ pos, UInt64.toNat_one]
  omega

theorem Contiguous.getEntry {l : Log α} (h : l.Contiguous) {index : UInt64} {k : Nat}
    (position : index.toNat = k + 1) : l.getEntry index = l.entries[k]? := by
  have adjusted := slicePosition position
  have nonzero : index ≠ 0 := by
    rintro rfl
    simp at position
  simp only [Log.getEntry, adjusted, nonzero, false_or, gt_iff_lt, UInt64.lt_iff_toNat_lt,
    h.lastIndex, position]
  by_cases lt : k < l.entries.length
  · rw [if_neg (by omega), if_neg (by omega)]
  · rw [if_pos (by omega), List.getElem?_eq_none (by omega)]

end Log

end Monitor.Models
