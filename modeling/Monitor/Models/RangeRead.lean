import Monitor.Models.Compaction

/-! # Reading a range of the log

`GetEntries` of `models/log.go` reserves room for `endIndex - startIndex + 1` entries,
computed in `uint64`, before its loop decides that there is nothing to read. On the
logs that `Append` and `Truncate` build, the loop itself is a slice of the entries.
-/

namespace Monitor.Models

open List UInt64

namespace Log

variable {α : Type}

/-- The logs that `Append` and `Truncate` build. A slice has fewer than `2 ^ 63` bytes, and an entry
    takes 40 of them. -/
inductive Kept : Log α → Prop where
  | new : Kept newLog
  | append {l : Log α} (entry : LogEntry α) : Kept l → 40 * (l.entries.length + 1) < 2 ^ 63 →
      Kept (l.append entry).2
  | truncate {l l' : Log α} {index : UInt64} : Kept l → l.truncate index = some l' → Kept l'

variable {l : Log α}

theorem Contiguous.take (h : l.Contiguous) (n : Nat) :
    ({ l with entries := l.entries.take n } : Log α).Contiguous := by
  intro i e found
  rw [getElem?_take] at found
  split at found
  · exact h i e found
  · cases found

theorem Contiguous.truncate (h : l.Contiguous) (index : UInt64) :
    l.truncate index = some { l with entries := l.entries.take index.toNat } := by
  unfold Log.truncate
  simp only [ge_iff_le, le_iff_toNat_le, h.lastIndex]
  by_cases beyond : l.entries.length ≤ index.toNat
  · simp only [if_pos beyond, take_of_length_le beyond]
  · simp only [if_neg beyond, if_neg (show ¬ l.entries.length < index.toNat by omega)]

theorem append_length (l : Log α) (entry : LogEntry α) :
    (l.append entry).2.entries.length = l.entries.length + 1 := by
  simp only [Log.append, length_append, length_singleton]

theorem Kept.contiguous (kept : Kept l) : l.Contiguous := by
  induction kept with
  | new => exact contiguous_newLog
  | append entry _ room ih => exact ih.append (by omega) entry
  | @truncate l l' index _ cut ih =>
    rw [ih.truncate] at cut
    cases cut
    exact ih.take index.toNat

theorem Kept.short (kept : Kept l) : 40 * l.entries.length < 2 ^ 63 := by
  induction kept with
  | new => simp [newLog]
  | append entry _ room _ => rwa [append_length]
  | @truncate l l' index before cut ih =>
    rw [before.contiguous.truncate] at cut
    cases cut
    have fewer := length_take_le' index.toNat l.entries
    change 40 * (l.entries.take index.toNat).length < 2 ^ 63
    omega

/-- The entries with an index from `first` to `last`. -/
def between (l : Log α) (first last : UInt64) : List (LogEntry α) :=
  l.entries.filter fun e => first ≤ e.index ∧ e.index ≤ last

theorem Contiguous.between (h : l.Contiguous) (first last : UInt64) :
    l.between first last = (l.entries.take last.toNat).drop (first.toNat - 1) := by
  have place : ∀ e ∈ l.entries, ∀ k : Nat, l.entries[k]? = some e →
      ((first ≤ e.index ∧ e.index ≤ last) ↔ first.toNat - 1 ≤ k ∧ k < last.toNat) := by
    intro e _ k found
    have index := h k e found
    simp only [le_iff_toNat_le, index]
    omega
  have front : ∀ e ∈ (l.entries.take last.toNat).take (first.toNat - 1),
      ¬ (first ≤ e.index ∧ e.index ≤ last) := by
    intro e mem
    obtain ⟨k, found⟩ := mem_iff_getElem?.mp mem
    simp only [getElem?_take] at found
    split at found
    · split at found
      · rw [place e (mem_of_getElem? found) k found]
        omega
      · cases found
    · cases found
  have middle : ∀ e ∈ (l.entries.take last.toNat).drop (first.toNat - 1),
      first ≤ e.index ∧ e.index ≤ last := by
    intro e mem
    obtain ⟨k, found⟩ := mem_iff_getElem?.mp mem
    simp only [getElem?_drop, getElem?_take] at found
    split at found
    · rw [place e (mem_of_getElem? found) _ found]
      omega
    · cases found
  have back : ∀ e ∈ l.entries.drop last.toNat, ¬ (first ≤ e.index ∧ e.index ≤ last) := by
    intro e mem
    obtain ⟨k, found⟩ := mem_iff_getElem?.mp mem
    rw [getElem?_drop] at found
    rw [place e (mem_of_getElem? found) _ found]
    omega
  have whole : l.entries = (l.entries.take last.toNat).take (first.toNat - 1) ++
      ((l.entries.take last.toNat).drop (first.toNat - 1) ++ l.entries.drop last.toNat) := by
    rw [← append_assoc, take_append_drop, take_append_drop]
  unfold Log.between
  conv_lhs => rw [whole]
  rw [filter_append, filter_append, filter_eq_nil_iff.mpr (by simpa using front),
    filter_eq_self.mpr (by simpa using middle),
    filter_eq_nil_iff.mpr (by simpa using back), nil_append, append_nil]

/-- The loop appends the entries from its counter to the last one, and ends. The counter never
    comes near the end of `uint64`. -/
theorem Contiguous.readLoop (h : l.Contiguous) {endIndex : UInt64}
    (lt : endIndex.toNat ≤ l.entries.length) (small : endIndex.toNat + 1 < 2 ^ 64) :
    ∀ (iterations : Nat) (i : UInt64) (result : List (LogEntry α)),
      endIndex.toNat + 1 - i.toNat ≤ iterations →
      l.readLoop endIndex iterations i result = .returned (result ++ l.between i endIndex) := by
  intro iterations
  induction iterations with
  | zero =>
    intro i result enough
    unfold Log.readLoop
    rw [if_neg (by rw [le_iff_toNat_le]; omega), h.between,
      drop_eq_nil_of_le (by rw [length_take]; omega), append_nil]
  | succ iterations ih =>
    intro i result enough
    unfold Log.readLoop
    by_cases more : i ≤ endIndex
    · have bound := le_iff_toNat_le.mp more
      have next : (i + 1).toNat = i.toNat + 1 := by
        rw [UInt64.toNat_add, UInt64.toNat_one, Nat.mod_eq_of_lt (by omega)]
      rw [if_pos more]
      simp only
      rw [ih (i + 1) _ (by omega), h.between, h.between, next]
      cases at_ : i.toNat with
      | zero =>
        have zero : i = 0 := UInt64.toNat_inj.mp at_
        have missing : l.getEntry 0 = none := by simp [Log.getEntry]
        simp only [zero, missing]
      | succ k =>
        have within : k < (l.entries.take endIndex.toNat).length := by
          rw [length_take]
          omega
        have here : k < l.entries.length := by omega
        rw [h.getEntry at_, getElem?_eq_getElem here]
        simp only [Nat.add_sub_cancel]
        rw [drop_eq_getElem_cons within, getElem_take, append_assoc]
        rfl
    · rw [if_neg more]
      have past : endIndex.toNat < i.toNat := by
        rw [le_iff_toNat_le] at more
        omega
      rw [h.between, drop_eq_nil_of_le (by rw [length_take]; omega), append_nil]

theorem Contiguous.index_le (h : l.Contiguous) {e : LogEntry α} (mem : e ∈ l.entries) :
    e.index ≤ l.getLastIndex := by
  obtain ⟨k, found⟩ := mem_iff_getElem?.mp mem
  have lt := (List.getElem?_eq_some_iff.mp found).1
  rw [le_iff_toNat_le, h.lastIndex, h k e found]
  omega

theorem Contiguous.between_clamp (h : l.Contiguous) (first last : UInt64) :
    l.between first (if last > l.getLastIndex then l.getLastIndex else last) =
      l.between first last := by
  split
  · rename_i beyond
    refine filter_congr fun e mem => ?_
    have low := h.index_le mem
    have high := UInt64.le_of_lt (UInt64.lt_of_le_of_lt low beyond)
    simp only [low, high]
  · rfl

/-- The range is read exactly when the start lies behind the last index, or at most one behind the
    end. -/
theorem getEntries_returned_iff {l : Log α} (kept : Kept l) (startIndex endIndex : UInt64)
    {iterations : Nat} (enough : l.entries.length < iterations) :
    l.getEntries iterations startIndex endIndex = .returned (l.between startIndex endIndex) ↔
      l.getLastIndex < startIndex ∨ startIndex.toNat ≤ endIndex.toNat + 1 := by
  have h := kept.contiguous
  have short := kept.short
  unfold getEntries
  by_cases behind : startIndex > l.getLastIndex
  · have nothing : l.between startIndex endIndex = [] := by
      refine filter_eq_nil_iff.mpr fun e member => ?_
      have low := UInt64.lt_of_le_of_lt (h.index_le member) behind
      simp [UInt64.not_le.mpr low]
    rw [if_pos behind, nothing]
    exact iff_of_true rfl (.inl behind)
  · rw [if_neg behind, or_iff_right behind, ← h.between_clamp]
    have clamped : (if endIndex > l.getLastIndex then l.getLastIndex else endIndex).toNat =
        min endIndex.toNat l.entries.length := by
      rw [← h.lastIndex]
      split
      · rename_i beyond
        have := UInt64.lt_iff_toNat_lt.mp beyond
        omega
      · rename_i within
        have := UInt64.le_iff_toNat_le.mp (UInt64.not_lt.mp within)
        omega
    have reached : startIndex.toNat ≤ l.entries.length := by
      rw [← h.lastIndex]
      exact UInt64.le_iff_toNat_le.mp (UInt64.not_lt.mp behind)
    generalize (if endIndex > l.getLastIndex then l.getLastIndex else endIndex) = last at clamped
    have capacity : (last - startIndex + 1).toNat =
        (2 ^ 64 - startIndex.toNat + last.toNat + 1) % 2 ^ 64 := by
      rw [UInt64.toNat_add, UInt64.toNat_sub, UInt64.toNat_one, Nat.mod_add_mod]
    by_cases ordered : startIndex.toNat ≤ endIndex.toNat + 1
    · rw [if_neg (by omega), h.readLoop (by omega) (by omega) iterations startIndex [] (by omega)]
      exact iff_of_true rfl ordered
    · rw [if_pos (by omega)]
      exact iff_of_false (fun same => by cases same) ordered

theorem fourEntries_kept : Kept fourEntries :=
  let entry : LogEntry Unit := ⟨1, 0, (), .command⟩
  (((Kept.new.append entry (by decide)).append entry (by decide)).append entry (by decide)).append
    entry (by decide)

/-- From index zero to the largest one. -/
theorem getEntries_returned_iff_all :
    fourEntries.getEntries 5 0 18446744073709551615 =
      .returned (fourEntries.between 0 18446744073709551615) :=
  (getEntries_returned_iff fourEntries_kept 0 18446744073709551615 (by decide)).mpr (.inr (by decide))

/-- With the end two below the start there is nothing to read, and the call panics. -/
theorem getEntries_panics :
    Kept fourEntries ∧ fourEntries.between 3 1 = [] ∧ fourEntries.getEntries 5 3 1 = .panic := by
  exact ⟨fourEntries_kept, by decide, by decide⟩

end Log

end Monitor.Models
