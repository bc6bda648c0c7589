import Monitor.Lib.GoText

/-! # Elections by `RequestVote`

`RequestVote` of `server.go` answers from what the Raft library reports and keeps
no memory of its own votes. It compares the index of the last log entries but not
their terms. Elections are safe for every set of servers exactly when the
requests make up for both (`electionSafe_iff`).
-/

namespace Monitor.Raft

open GoText

/-- What the Raft library of a server reports, and the term of its last log entry. -/
structure Report where
  stats : List (GoString × GoString)
  lastIndex : UInt64
  lastLogTerm : UInt64
  deriving DecidableEq

/-- An entry of the statistics; a missing one reads as the empty string. -/
def Report.stat (r : Report) (key : GoString) : GoString := (r.stats.lookup key).getD []

structure VoteRequest where
  term : UInt64
  candidateId : GoString
  lastLogIndex : UInt64
  lastLogTerm : UInt64
  deriving DecidableEq

structure VoteResponse where
  term : UInt64
  voteGranted : Bool
  deriving DecidableEq

def isBlank (c : UInt8) : Bool := decide (c = 32 ∨ c = 9 ∨ c = 11 ∨ c = 12 ∨ c = 13)

/-- `parseTerm`: what `Sscanf` reads with `%d` into a zero `uint64`. -/
def parseTerm (termStr : GoString) : UInt64 :=
  match parseNat ((termStr.dropWhile isBlank).takeWhile isDigit) with
  | some term => if term < 2 ^ 64 then UInt64.ofNat term else 0
  | none => 0

def requestVote (r : Report) (req : VoteRequest) : VoteResponse :=
  let currentTerm := parseTerm (r.stat (ascii "term"))
  if req.term < currentTerm then
    ⟨currentTerm, false⟩
  else
    let votedFor := r.stat (ascii "voted_for")
    if votedFor ≠ [] ∧ votedFor ≠ req.candidateId then
      ⟨currentTerm, false⟩
    else if req.lastLogIndex < r.lastIndex then
      ⟨currentTerm, false⟩
    else
      ⟨currentTerm, true⟩

/-- A request that a server handles, with what its library reports then. -/
structure Event (ι : Type) where
  server : ι
  report : Report
  req : VoteRequest
  deriving DecidableEq

variable {ι : Type}

namespace Event

def granted (e : Event ι) : Bool := (requestVote e.report e.req).voteGranted

/-- The comparisons that `RequestVote` makes. -/
def Passes (e : Event ι) : Prop :=
  parseTerm (e.report.stat (ascii "term")) ≤ e.req.term ∧
    (e.report.stat (ascii "voted_for") = [] ∨
      e.report.stat (ascii "voted_for") = e.req.candidateId) ∧
    e.report.lastIndex ≤ e.req.lastLogIndex

instance (e : Event ι) : Decidable e.Passes := inferInstanceAs (Decidable (_ ∧ _ ∧ _))

theorem granted_iff (e : Event ι) : e.granted = true ↔ e.Passes := by
  simp only [granted, requestVote, Passes]
  split
  · rename_i old
    exact iff_of_false Bool.false_ne_true fun passes => UInt64.not_le.mpr old passes.1
  · rename_i current
    split
    · rename_i taken
      exact iff_of_false Bool.false_ne_true fun passes => passes.2.1.elim taken.1 taken.2
    · rename_i free
      split
      · rename_i behind
        exact iff_of_false Bool.false_ne_true fun passes => UInt64.not_le.mpr behind passes.2.2
      · rename_i ahead
        refine iff_of_true rfl ⟨UInt64.not_lt.mp current, ?_, UInt64.not_lt.mp ahead⟩
        by_contra neither
        exact free (not_or.mp neither)

/-- The log of the candidate is at least as new as the log of the server: terms first, then
    indices. -/
def UpToDate (e : Event ι) : Prop :=
  e.report.lastLogTerm < e.req.lastLogTerm ∨
    e.report.lastLogTerm = e.req.lastLogTerm ∧ e.report.lastIndex ≤ e.req.lastLogIndex

theorem upToDate_iff {e : Event ι} (passes : e.Passes) :
    e.UpToDate ↔ e.report.lastLogTerm ≤ e.req.lastLogTerm := by
  constructor
  · rintro (newer | ⟨same, _⟩)
    · exact UInt64.le_of_lt newer
    · exact UInt64.le_of_eq same
  · intro le
    rcases UInt64.lt_or_eq_of_le le with newer | same
    · exact .inl newer
    · exact .inr ⟨same, passes.2.2⟩

end Event

variable [DecidableEq ι]

/-- The servers of a set that granted a vote of a term to a candidate. -/
def votes (servers : Finset ι) (events : List (Event ι)) (term : UInt64) (candidate : GoString) :
    Finset ι :=
  servers.filter fun i => ∃ e ∈ events, e.server = i ∧ e.req.term = term ∧
    e.req.candidateId = candidate ∧ e.granted = true

def Majority (servers part : Finset ι) : Prop := servers.card < 2 * part.card

theorem Majority.common {servers a b : Finset ι} (ha : Majority servers a) (hb : Majority servers b)
    (aSub : a ⊆ servers) (bSub : b ⊆ servers) : ∃ i, i ∈ a ∧ i ∈ b := by
  by_contra none_
  have disjoint : Disjoint a b :=
    Finset.disjoint_left.mpr fun i inA inB => none_ ⟨i, inA, inB⟩
  have total := Finset.card_le_card (Finset.union_subset aSub bSub)
  rw [Finset.card_union_of_disjoint disjoint] at total
  rw [Majority] at ha hb
  omega

/-- In no term two candidates have a majority, and votes go to candidates that are up to date. -/
structure ElectionSafe (servers : Finset ι) (events : List (Event ι)) : Prop where
  single : ∀ term candidate candidate', Majority servers (votes servers events term candidate) →
    Majority servers (votes servers events term candidate') → candidate = candidate'
  upToDate : ∀ e ∈ events, e.granted = true → e.UpToDate

/-- What the requests have to meet: at no server requests of one term by two candidates pass, and
    where a request passes, its last log term is not below the last log term of the server. -/
structure Careful (events : List (Event ι)) : Prop where
  once : ∀ e ∈ events, ∀ e' ∈ events, e.server = e'.server → e.req.term = e'.req.term →
    e.Passes → e'.Passes → e.req.candidateId = e'.req.candidateId
  fresh : ∀ e ∈ events, e.Passes → e.report.lastLogTerm ≤ e.req.lastLogTerm

/-- A history of requests is safe for every set of servers if and only if it is careful. -/
theorem electionSafe_iff (events : List (Event ι)) :
    (∀ servers : Finset ι, ElectionSafe servers events) ↔ Careful events := by
  constructor
  · intro safe
    refine ⟨?_, ?_⟩
    · intro e member e' member' server term passes passes'
      -- the server alone is a set in which its own vote is a majority
      have alone (v : Event ι) (inside : v ∈ events) (at_ : v.server = e.server)
          (passes : v.Passes) :
          Majority {e.server} (votes {e.server} events v.req.term v.req.candidateId) := by
        have only : votes {e.server} events v.req.term v.req.candidateId = {e.server} := by
          refine Finset.filter_true_of_mem fun i here => ?_
          rw [Finset.mem_singleton.mp here]
          exact ⟨v, inside, at_, rfl, rfl, v.granted_iff.mpr passes⟩
        rw [only, Majority, Finset.card_singleton]
        decide
      have other := alone e' member' server.symm passes'
      rw [← term] at other
      exact (safe {e.server}).single e.req.term _ _ (alone e member rfl passes) other
    · intro e member passes
      exact (Event.upToDate_iff passes).mp
        ((safe ∅).upToDate e member (e.granted_iff.mpr passes))
  · intro careful servers
    refine ⟨?_, ?_⟩
    · intro term candidate candidate' most most'
      obtain ⟨i, inside, inside'⟩ :=
        most.common most' (Finset.filter_subset _ _) (Finset.filter_subset _ _)
      obtain ⟨e, member, server, at_, rfl, granted⟩ := (Finset.mem_filter.mp inside).2
      obtain ⟨e', member', server', at_', rfl, granted'⟩ := (Finset.mem_filter.mp inside').2
      exact careful.once e member e' member' (server.trans server'.symm) (at_.trans at_'.symm)
        (e.granted_iff.mp granted) (e'.granted_iff.mp granted')
    · intro e member granted
      have passes := e.granted_iff.mp granted
      exact (Event.upToDate_iff passes).mpr (careful.fresh e member passes)

/-- A server in term 1 with one log entry of term 1; the library reports no vote. -/
def follower : Report where
  stats := [(ascii "state", ascii "Follower"), (ascii "term", ascii "1")]
  lastIndex := 1
  lastLogTerm := 1

inductive Server where
  | first
  | second
  | third
  deriving DecidableEq

def cluster : Finset Server := {.first, .second, .third}

/-- Candidate `c` asks server `i` for its vote in term 2. -/
def ask (i : Server) (c : GoString) : Event Server := ⟨i, follower, ⟨2, c, 1, 1⟩⟩

def twoCandidates : List (Event Server) :=
  [ask .first (ascii "a"), ask .second (ascii "a"), ask .third (ascii "a"),
    ask .first (ascii "b"), ask .second (ascii "b"), ask .third (ascii "b")]

/-- Candidate `a` asks a server whose last entry has the same index and a later term. -/
def askAhead : Event Server := ⟨.first, { follower with lastLogTerm := 2 }, ⟨2, ascii "a", 1, 1⟩⟩

/-- All three servers vote for both candidates of term 2, and a server votes for a candidate whose
    log is behind its own. -/
theorem two_winners :
    ¬ ElectionSafe cluster twoCandidates ∧ ¬ ElectionSafe cluster [askAhead] := by
  constructor
  · intro safe
    have won (c : GoString) (all : votes cluster twoCandidates 2 c = cluster) :
        Majority cluster (votes cluster twoCandidates 2 c) := by
      rw [all, Majority]
      decide
    have same := safe.single 2 (ascii "a") (ascii "b") (won _ (by decide +kernel))
      (won _ (by decide +kernel))
    exact absurd same (by decide)
  · intro safe
    rcases safe.upToDate askAhead List.mem_cons_self (by decide +kernel) with newer | ⟨same, _⟩
    · exact absurd newer (by decide)
    · exact absurd same (by decide)

end Monitor.Raft
