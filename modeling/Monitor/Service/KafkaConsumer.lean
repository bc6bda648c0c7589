import Monitor.Lib.GoText
import Monitor.Lib.Runs

/-! # The Kafka consumer

`consumeLoop` and `processMessage` of `kafka_consumer.go` on one partition. Fetching returns
consecutive offsets, and committing a message sets the group's offset behind it. What the
storage and the broker answer is part of the events. A group without a committed offset
starts at the end of the partition (`StartOffset: kafka.LastOffset`).
-/

namespace Monitor.Service

open GoText Runs List

/-- A partition with the offset the group has committed. -/
structure Partition where
  log : List GoString
  committed : Option Nat
  inside : ∀ c ∈ committed, c ≤ log.length

/-- Where a reader that joins the group begins to fetch. -/
def Partition.startOffset (p : Partition) : Nat := p.committed.getD p.log.length

theorem Partition.startOffset_some {p : Partition} {c : Nat} (h : p.committed = some c) :
    p.startOffset = c := by
  unfold startOffset
  rw [h]
  rfl

theorem Partition.startOffset_none {p : Partition} (h : p.committed = none) :
    p.startOffset = p.log.length := by
  unfold startOffset
  rw [h]
  rfl

theorem Partition.startOffset_le (p : Partition) : p.startOffset ≤ p.log.length := by
  cases committed : p.committed with
  | none => exact (startOffset_none committed).le
  | some c => exact (startOffset_some committed).trans_le (p.inside c committed)

/-- The partition, the reader's position, and what happened to messages so far. -/
structure Consumer where
  partition : Partition
  position : Nat
  fetched : List Nat
  stored : List Nat

/-- `Start` on a partition, with nothing fetched before. -/
def Consumer.start (p : Partition) : Consumer := ⟨p, p.startOffset, [], []⟩

inductive ProcessError where
  | unmarshal
  | store (message : GoString)
  deriving DecidableEq

/-- `processMessage`, with the answer of `StoreMetrics`. -/
def processMessage {Data : Type} (unmarshal : GoString → Option Data) (storeErr : Option GoString)
    (value : GoString) : Option ProcessError :=
  match unmarshal value with
  | none => some .unmarshal
  | some _ => storeErr.map .store

inductive KafkaEvent where
  /-- Someone writes to the partition. -/
  | produce (value : GoString)
  /-- A turn of the loop in which fetching fails or times out. -/
  | fetchError
  /-- A turn that fetches a message; the answers of storing and committing it. -/
  | consume (storeErr commitErr : Option GoString)
  /-- The process ends and a new one joins the group. -/
  | restart

namespace Consumer

variable {Data : Type} (unmarshal : GoString → Option Data)

def produce (s : Consumer) (value : GoString) : Consumer :=
  { s with
    partition :=
      { s.partition with
        log := s.partition.log ++ [value]
        inside := fun c member => by
          have := s.partition.inside c member
          simp only [length_append]
          omega } }

/-- The offset behind a message of the partition is committed. -/
def commit (s : Consumer) (offset : Nat) (member : offset < s.partition.log.length) : Consumer :=
  { s with
    partition :=
      { s.partition with
        committed := some (offset + 1)
        inside := fun c same => by
          cases same
          omega } }

/-- The message at the position was fetched; the next one follows it. -/
def fetch (s : Consumer) : Consumer :=
  { s with position := s.position + 1, fetched := s.position :: s.fetched }

def store (s : Consumer) (offset : Nat) : Consumer := { s with stored := offset :: s.stored }

/-- A turn of `consumeLoop` that gets a message; without one it would wait. -/
def consume (s : Consumer) (storeErr commitErr : Option GoString) : Option Consumer :=
  if member : s.position < s.partition.log.length then
    match processMessage unmarshal storeErr (s.partition.log.get ⟨s.position, member⟩) with
    | some _ => some s.fetch
    | none =>
      match commitErr with
      | some _ => some (s.fetch.store s.position)
      | none => some ((s.fetch.store s.position).commit s.position member)
  else
    none

def step (s : Consumer) : KafkaEvent → Option Consumer
  | .produce value => some (s.produce value)
  | .fetchError => some s
  | .consume storeErr commitErr => s.consume unmarshal storeErr commitErr
  | .restart => some { s with position := s.partition.startOffset }

/-- The committed offset is not beyond a message that was fetched and never stored, and a new
    reader would fetch it again. -/
structure AtLeastOnce (s : Consumer) : Prop where
  committed : ∀ o ∈ s.fetched, o ∉ s.stored → ∀ c ∈ s.partition.committed, c ≤ o
  again : ∀ o ∈ s.fetched, o ∉ s.stored → s.partition.startOffset ≤ o

/-- Whether processing the message at the position fails. -/
def Fails (s : Consumer) (storeErr : Option GoString) : Prop :=
  ∃ value, s.partition.log[s.position]? = some value ∧
    processMessage unmarshal storeErr value ≠ none

/-- A message may fail when it is stored already or the group has an offset to come back to; a
    message may be committed when all fetched before it are stored. -/
def Harmless (s : Consumer) : KafkaEvent → Prop
  | .consume storeErr commitErr =>
    (Fails unmarshal s storeErr → s.position ∈ s.stored ∨ s.partition.committed ≠ none) ∧
    (¬ Fails unmarshal s storeErr → commitErr = none → ∀ o ∈ s.fetched, o < s.position → o ∈ s.stored)
  | _ => True

variable {s s' : Consumer}

theorem consume_cases {unmarshal : GoString → Option Data} {storeErr commitErr : Option GoString}
    (taken : s.consume unmarshal storeErr commitErr = some s') : s.position < s.partition.log.length ∧
      ((Fails unmarshal s storeErr ∧ s' = s.fetch) ∨
        (¬ Fails unmarshal s storeErr ∧ commitErr ≠ none ∧ s' = s.fetch.store s.position) ∨
        (¬ Fails unmarshal s storeErr ∧ commitErr = none ∧
          ∃ mem, s' = (s.fetch.store s.position).commit s.position mem)) := by
  unfold consume at taken
  split at taken
  · rename_i mem
    have there : s.partition.log[s.position]? = some (s.partition.log.get ⟨s.position, mem⟩) :=
      getElem?_eq_getElem mem
    have fails : Fails unmarshal s storeErr ↔
        processMessage unmarshal storeErr (s.partition.log.get ⟨s.position, mem⟩) ≠ none := by
      unfold Fails
      rw [there]
      simp
    refine ⟨mem, ?_⟩
    split at taken
    · rename_i err failed
      cases taken
      exact .inl ⟨fails.mpr (failed ▸ nofun), rfl⟩
    · rename_i succeeded
      have good : ¬ Fails unmarshal s storeErr := fun bad => fails.mp bad succeeded
      split at taken
      · cases taken
        exact .inr (.inl ⟨good, nofun, rfl⟩)
      · cases taken
        exact .inr (.inr ⟨good, rfl, mem, rfl⟩)
  · cases taken

/-- The reader is between the committed offset and the end, and has fetched from the log. -/
structure Consistent (s : Consumer) : Prop where
  behind : ∀ c ∈ s.partition.committed, c ≤ s.position
  position : s.position ≤ s.partition.log.length
  fetched : ∀ o ∈ s.fetched, o < s.partition.log.length

theorem Consistent.step {unmarshal : GoString → Option Data} {e : KafkaEvent}
    (h : s.Consistent) (taken : s.step unmarshal e = some s') : s'.Consistent := by
  cases e with
  | fetchError =>
    cases taken
    exact h
  | produce value =>
    cases taken
    have longer : s.partition.log.length ≤ (s.partition.log ++ [value]).length := by simp
    exact ⟨h.behind, h.position.trans longer, fun o mem => (h.fetched o mem).trans_le longer⟩
  | restart =>
    cases taken
    exact ⟨fun c committed => (Partition.startOffset_some committed).ge,
      s.partition.startOffset_le, h.fetched⟩
  | consume storeErr commitErr =>
    obtain ⟨inside, cases_⟩ := consume_cases taken
    have fetched : ∀ o ∈ s.position :: s.fetched, o < s.partition.log.length := by
      simp only [mem_cons, forall_eq_or_imp]
      exact ⟨inside, h.fetched⟩
    have moved : s.fetch.Consistent :=
      ⟨fun c committed => Nat.le_succ_of_le (h.behind c committed), inside, fetched⟩
    rcases cases_ with ⟨_, same⟩ | ⟨_, _, same⟩ | ⟨_, _, mem, same⟩
    · exact same ▸ moved
    · exact same ▸ ⟨moved.behind, moved.position, moved.fetched⟩
    · subst same
      exact ⟨fun c committed => by cases committed; exact le_rfl, inside, fetched⟩

/-- Everything fetched and not stored is at or behind where a new reader begins. The committed
    offset, if there is one, is that place. -/
theorem atLeastOnce_iff_again (s : Consumer) : s.AtLeastOnce ↔
    ∀ o ∈ s.fetched, o ∉ s.stored → s.partition.startOffset ≤ o := by
  constructor
  · exact fun h => h.again
  · intro again
    refine ⟨fun o mem missing c committed => ?_, again⟩
    have := again o mem missing
    rwa [Partition.startOffset_some committed] at this

theorem atLeastOnce_step {unmarshal : GoString → Option Data} {e : KafkaEvent}
    (h : s.Consistent) (once : s.AtLeastOnce) (taken : s.step unmarshal e = some s') :
    s'.AtLeastOnce ↔ Harmless unmarshal s e := by
  rw [atLeastOnce_iff_again] at once ⊢
  cases e with
  | fetchError =>
    cases taken
    exact iff_of_true once trivial
  | restart =>
    cases taken
    exact iff_of_true once trivial
  | produce value =>
    cases taken
    refine iff_of_true (fun o mem missing => ?_) trivial
    have before := once o mem missing
    have inside := h.fetched o mem
    -- without a committed offset everything fetched so far is stored
    cases committed : s.partition.committed with
    | none =>
      rw [Partition.startOffset_none committed] at before
      omega
    | some c =>
      rw [Partition.startOffset_some committed] at before
      exact (Partition.startOffset_some (p := (s.produce value).partition) committed).trans_le before
  | consume storeErr commitErr =>
    obtain ⟨inside, cases_⟩ := consume_cases taken
    rcases cases_ with ⟨fails, same⟩ | ⟨succeeds, failed, same⟩ | ⟨succeeds, ok, mem, same⟩
    · subst same
      simp only [Harmless, fails, true_implies, not_true_eq_false, false_implies, and_true]
      simp only [fetch, mem_cons, forall_eq_or_imp]
      constructor
      · intro after
        by_contra lost
        simp only [not_or, not_not] at lost
        have here := after.1 lost.1
        rw [Partition.startOffset_none lost.2] at here
        omega
      · intro covered
        refine ⟨fun missing => ?_, once⟩
        cases committed : s.partition.committed with
        | none => exact absurd committed (covered.resolve_left missing)
        | some c =>
          exact (Partition.startOffset_some committed).trans_le (h.behind c committed)
    · subst same
      simp only [Harmless, succeeds, false_implies, not_false_eq_true, true_implies, true_and, failed]
      refine iff_of_true (fun o mem missing => ?_) trivial
      simp only [store, fetch, mem_cons, not_or] at mem missing
      exact once o (mem.resolve_left missing.1) missing.2
    · subst same
      simp only [Harmless, succeeds, false_implies, not_false_eq_true, true_implies, true_and, ok]
      simp only [commit, store, fetch, Partition.startOffset, Option.getD_some, mem_cons, not_or]
      constructor
      · intro after o mem before
        by_contra missing
        have := after o (.inr mem) ⟨by omega, missing⟩
        omega
      · intro stored o mem missing
        have listed := mem.resolve_left missing.1
        by_contra early
        exact missing.2 (stored o listed (by omega))

/-- On every partition and in every run, with restarts, no message is lost exactly when each step
    is harmless. -/
theorem run_atLeastOnce_iff (p : Partition) (events : List KafkaEvent) :
    Throughout (step unmarshal) AtLeastOnce (start p) events ↔
      EachStep (step unmarshal) (Harmless unmarshal) (start p) events := by
  have consistent : (start p).Consistent := by
    exact ⟨fun c committed => (Partition.startOffset_some committed).ge, p.startOffset_le, by
      simp [start]⟩
  have once : (start p).AtLeastOnce := ⟨by simp [start], by simp [start]⟩
  exact throughout_iff Consistent
    (fun _ _ _ h _ taken _ => h.step taken)
    (fun _ _ _ h holds taken => atLeastOnce_step h holds taken) events consistent once

def twoMessages : Partition := ⟨[ascii "a", ascii "b"], some 0, by decide⟩

/-- The first message is not stored, the second one is stored and committed: a new reader begins
    behind both. -/
theorem failed_message_skipped :
    (∃ s, [KafkaEvent.consume (some (ascii "down")) none, .consume none none].foldlM
        (step (fun _ => some ())) (start twoMessages) = some s ∧
      0 ∈ s.fetched ∧ 0 ∉ s.stored ∧ s.partition.committed = some 2 ∧
      s.partition.startOffset = 2) ∧
    ¬ Throughout (step fun _ => some ()) AtLeastOnce (start twoMessages)
      [.consume (some (ascii "down")) none, .consume none none] := by
  refine ⟨⟨_, rfl, by decide, by decide, rfl, rfl⟩, not_throughout rfl fun once => ?_⟩
  exact absurd (once.again 0 (by decide) (by decide)) (by decide)

end Consumer

end Monitor.Service
