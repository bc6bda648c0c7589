import Mathlib

/-! # A finite map under insertions and deletions

What a key is mapped to behind a list of operations, and how many keys there are. Pairs can
also be gathered into a map by a loop (`Gathers.foldl`).
-/

namespace Monitor.FiniteMap

open List Function

variable {K V : Type}

inductive Op (K V : Type) where
  | insert (key : K) (value : V)
  | delete (key : K)

def Op.key : Op K V → K
  | .insert key _ => key
  | .delete key => key

def keys (m : K → Option V) : Set K := {k | m k ≠ none}

section Gathering

/-- The pairs are written into a map, and nothing else changes. -/
structure Gathers (pairs : K → V → Prop) (m m' : K → Option V) : Prop where
  added : ∀ k v, pairs k v → m' k = some v
  kept : ∀ k, (∀ v, ¬ pairs k v) → m' k = m k

theorem Gathers.foldl {I : Type} {pairs : I → K → V → Prop} {turn : (K → Option V) → I → K → Option V}
    (each : ∀ m i, Gathers (pairs i) m (turn m i))
    (agree : ∀ i j k v v', pairs i k v → pairs j k v' → v = v') (is : List I) (m : K → Option V) :
    Gathers (fun k v => ∃ i ∈ is, pairs i k v) m (is.foldl turn m) := by
  induction is generalizing m with
  | nil => exact ⟨fun k v found => by simp at found, fun _ _ => rfl⟩
  | cons i is ih =>
    have first := each m i
    have later := ih (turn m i)
    refine ⟨fun k v found => ?_, fun k absent => ?_⟩
    · obtain ⟨j, mem, pair⟩ := found
      by_cases again : ∃ v', ∃ j ∈ is, pairs j k v'
      · obtain ⟨v', j', mem', pair'⟩ := again
        rw [agree j j' k v v' pair pair']
        exact later.added k v' ⟨j', mem', pair'⟩
      · have here : pairs i k v := by
          rcases mem_cons.mp mem with rfl | listed
          · exact pair
          · exact absurd ⟨v, j, listed, pair⟩ again
        rw [foldl_cons, later.kept k fun v' found => again ⟨v', found⟩]
        exact first.added k v here
    · rw [foldl_cons, later.kept k, first.kept k]
      · exact fun v pair => absent v ⟨i, mem_cons_self, pair⟩
      · rintro v ⟨j, mem, pair⟩
        exact absent v ⟨j, mem_cons_of_mem i mem, pair⟩

theorem Gathers.eq_some_iff {pairs : K → V → Prop} {m : K → Option V}
    (gathers : Gathers pairs (fun _ => none) m) {k : K} {v : V} : m k = some v ↔ pairs k v := by
  refine ⟨fun found => ?_, gathers.added k v⟩
  by_cases present : ∃ v', pairs k v'
  · obtain ⟨v', pair⟩ := present
    rw [gathers.added k v' pair] at found
    cases found
    exact pair
  · rw [gathers.kept k fun v' pair => present ⟨v', pair⟩] at found
    cases found

end Gathering

variable [DecidableEq K]

def Op.apply (m : K → Option V) : Op K V → K → Option V
  | .insert key value => update m key (some value)
  | .delete key => update m key none

/-- The latest value of a key that was inserted and not deleted since. -/
def content (ops : List (Op K V)) : K → Option V := ops.foldl Op.apply fun _ => none

theorem content_concat (ops : List (Op K V)) (op : Op K V) :
    content (ops ++ [op]) = op.apply (content ops) := by
  rw [content, foldl_append]
  rfl

theorem keys_insert (m : K → Option V) (key : K) (value : V) :
    keys (update m key (some value)) = insert key (keys m) := by
  ext k
  by_cases same : k = key
  · simp [keys, same]
  · simp [keys, same]

theorem keys_delete (m : K → Option V) (key : K) : keys (update m key none) = keys m \ {key} := by
  ext k
  by_cases same : k = key
  · simp [keys, same]
  · simp [keys, same]

theorem keys_finite (ops : List (Op K V)) : (keys (content ops)).Finite := by
  induction ops using List.reverseRecOn with
  | nil => simp [keys, content]
  | append_singleton ops op ih =>
    rw [content_concat]
    cases op with
    | insert key value =>
      rw [Op.apply, keys_insert]
      exact ih.insert key
    | delete key =>
      rw [Op.apply, keys_delete]
      exact ih.sdiff

theorem content_some_of_forall {P : K → Prop} {ops : List (Op K V)}
    (all : ∀ op ∈ ops, P op.key) {k : K} {v : V} (found : content ops k = some v) : P k := by
  induction ops using List.reverseRecOn generalizing v with
  | nil => cases found
  | append_singleton ops op ih =>
    have earlier {v : V} : content ops k = some v → P k :=
      ih fun op mem => all op (mem_append_left _ mem)
    rw [content_concat] at found
    cases op with
    | insert key value =>
      by_cases same : k = key
      · rw [same]
        exact all (.insert key value) (mem_append_right _ (mem_singleton_self _))
      · rw [Op.apply, update_of_ne same] at found
        exact earlier found
    | delete key =>
      by_cases same : k = key
      · rw [same, Op.apply, update_self] at found
        cases found
      · rw [Op.apply, update_of_ne same] at found
        exact earlier found

end Monitor.FiniteMap
