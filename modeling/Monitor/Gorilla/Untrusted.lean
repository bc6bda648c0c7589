import Monitor.Gorilla.Codec

/-! # Decoding bytes nobody vouches for

`Decompress` on an arbitrary byte string. The stream itself says how many records follow and
how wide each one is, so the input is first read as a list of record headers, a matter of its
bits alone. Beside it stands the trace of every shift the decoder performs. All but one kind
of shift are always in range, and the decoder survives exactly when the long headers keep that
kind in range too and the announced points fit the array the Go side slices.
-/

namespace Monitor.Gorilla

open BitStream List BitReader

/-- How many bits the delta-of-delta field at the head of a stream takes. -/
def deltaWidth (bits : List Bool) : Nat :=
  if !bits.getD 0 false then 1
  else if !bits.getD 1 false then 2 + 7
  else if !bits.getD 2 false then 3 + 9
  else if !bits.getD 3 false then 4 + 12
  else 4 + 64

/-- What a value field announces about itself. -/
inductive ValueHeader where
  | unchanged
  | short (significant : Nat)
  | long (leadingZeros significant : Nat)
  deriving DecidableEq, Repr

/-- The header of the value field at the head of a stream. -/
def valueHeader (bits : List Bool) : ValueHeader :=
  if !bits.getD 0 false then .unchanged
  else if !bits.getD 1 false then .short ((gather (bits.drop 2) 3 : BitVec 64).toNat + 1)
  else .long (gather (bits.drop 2) 6 : BitVec 64).toNat (gather (bits.drop 8) 6 : BitVec 64).toNat

def ValueHeader.width : ValueHeader → Nat
  | .unchanged => 1
  | .short significant => 2 + 3 + significant
  | .long _ significant => 2 + 6 + 6 + significant

/-- A long header leaves between 0 and 63 trailing zeros. The other formats are not shifted. -/
def ValueHeader.Shiftable : ValueHeader → Prop
  | .unchanged => True
  | .short _ => True
  | .long leadingZeros significant =>
    1 ≤ leadingZeros + significant ∧ leadingZeros + significant ≤ 64

instance : DecidablePred ValueHeader.Shiftable
  | .unchanged => .isTrue trivial
  | .short _ => .isTrue trivial
  | .long _ _ => inferInstanceAs (Decidable (_ ∧ _))

/-- The value headers of the first `n` records. -/
def headers (bits : List Bool) : Nat → List ValueHeader
  | 0 => []
  | n + 1 =>
    let value := bits.drop (deltaWidth bits)
    valueHeader value :: headers (value.drop (valueHeader value).width) n

def announced (data : List (BitVec 8)) : Nat := (gather (unpack data) 32 : BitVec 64).toNat

/-- The value headers of the records behind the first point. -/
def valueHeaders (data : List (BitVec 8)) : List ValueHeader :=
  headers ((unpack data).drop (32 + 64 + 64)) (announced data - 1)

/-- The shift `buffer_[byte_pos] >> bit_offset`, behind the check for the end. -/
def BitReader.readBitShifts (r : BitReader) : List Int :=
  if r.bitPosition / 8 ≥ r.buffer.length then [] else [((r.bitPosition % 8 : Nat) : Int)]

/-- Those of each bit read, and `1ULL << i` where the bit is set. -/
def BitReader.readBitsShifts (r : BitReader) (bits : Nat) : List Int :=
  (List.range bits).flatMap fun i =>
    let reader := (r.readBits i).2
    reader.readBitShifts ++ if reader.readBit.1 then [(i : Int)] else []

/-- The shifts of `readDeltaOfDelta`. -/
def deltaShifts (r : BitReader) : List Int :=
  r.readBitShifts ++
    let (bit, r) := r.readBit
    if !bit then
      []
    else
      r.readBitShifts ++
        let (bit, r) := r.readBit
        if !bit then
          r.readBitsShifts 7
        else
          r.readBitShifts ++
            let (bit, r) := r.readBit
            if !bit then
              r.readBitsShifts 9
            else
              r.readBitShifts ++
                let (bit, r) := r.readBit
                if !bit then r.readBitsShifts 12 else r.readBitsShifts 64

/-- The shifts of `readValueBits`. -/
def valueShifts (r : BitReader) : List Int :=
  r.readBitShifts ++
    let (bit, r) := r.readBit
    if !bit then
      []
    else
      r.readBitShifts ++
        let (bit, r) := r.readBit
        if !bit then
          let (count, r') := r.readBits 3
          r.readBitsShifts 3 ++ r'.readBitsShifts (count.toNat + 1)
        else
          let (leadingZeros, r₁) := r.readBits 6
          let (significant, r₂) := r₁.readBits 6
          r.readBitsShifts 6 ++ r₁.readBitsShifts 6 ++ r₂.readBitsShifts significant.toNat ++
            [64 - (leadingZeros.toNat : Int) - significant.toNat]

/-- The shifts of `decompressLoop`. Behind an undefined one there is nothing to say. -/
def loopShifts (r : BitReader) (prevValueBits : BitVec 64) : Nat → List Int
  | 0 => []
  | n + 1 =>
    let r' := (readDeltaOfDelta r).2
    deltaShifts r ++ valueShifts r' ++
      match readValueBits r' prevValueBits with
      | .error _ => []
      | .ok (valueBits, r) => loopShifts r valueBits n

/-- The shifts of `decompress`. -/
def decompressShifts (data : List (BitVec 8)) : List Int :=
  if data.length = 0 then
    []
  else
    let (pointCount, r₁) := BitReader.readBits ⟨data, 0⟩ 32
    let (_, r₂) := r₁.readBits 64
    let (valueBits, r₃) := r₂.readBits 64
    BitReader.readBitsShifts ⟨data, 0⟩ 32 ++ r₁.readBitsShifts 64 ++ r₂.readBitsShifts 64 ++
      loopShifts r₃ valueBits (pointCount.toNat - 1)

/-- Every count is one that C++ defines for a 64-bit word. -/
def Defined (shifts : List Int) : Prop := ∀ count ∈ shifts, 0 ≤ count ∧ count ≤ 63

@[simp] theorem defined_nil : Defined [] := by simp [Defined]

@[simp] theorem defined_append {first second : List Int} :
    Defined (first ++ second) ↔ Defined first ∧ Defined second := by
  simp only [Defined, forall_mem_append]

@[simp] theorem defined_singleton {count : Int} : Defined [count] ↔ 0 ≤ count ∧ count ≤ 63 := by
  simp [Defined]

variable (n : Nat)

namespace BitReader

section

variable (r : BitReader)

@[simp] theorem readBitShifts_defined : Defined r.readBitShifts := by
  unfold readBitShifts
  split
  · exact defined_nil
  · rw [defined_singleton]
    omega

theorem readBitsShifts_defined {bits : Nat} (fits : bits ≤ 64) : Defined (r.readBitsShifts bits) := by
  intro count mem
  simp only [readBitsShifts, mem_flatMap, mem_range] at mem
  obtain ⟨i, below, mem⟩ := mem
  have each : Defined ((r.readBits i).2.readBitShifts ++
      if (r.readBits i).2.readBit.1 then [(i : Int)] else []) := by
    rw [defined_append]
    refine ⟨readBitShifts_defined _, ?_⟩
    split
    · rw [defined_singleton]
      omega
    · exact defined_nil
  exact each count mem

theorem readBit_fst : r.readBit.1 = r.rest.getD 0 false := (readBit_spec r).1

theorem readBit_rest : r.readBit.2.rest = r.rest.drop 1 := (readBit_spec r).2

theorem readBits_fst : (r.readBits n).1 = gather r.rest n :=
  (readBits_spec r n).1

theorem readBits_rest : (r.readBits n).2.rest = r.rest.drop n :=
  (readBits_spec r n).2

theorem readBits_lt : (r.readBits n).1.toNat < 2 ^ n := by
  rw [readBits_fst]
  exact gather_lt r.rest n

end

end BitReader

variable (r : BitReader)

theorem deltaShifts_defined : Defined (deltaShifts r) := by
  unfold deltaShifts
  simp only [defined_append, readBitShifts_defined, true_and]
  cases r.readBit.1 with
  | false => simp
  | true =>
    simp only [Bool.not_true, Bool.false_eq_true, if_false, defined_append,
      readBitShifts_defined, true_and]
    cases r.readBit.2.readBit.1 with
    | false => exact readBitsShifts_defined _ (by omega)
    | true =>
      simp only [Bool.not_true, Bool.false_eq_true, if_false, defined_append,
        readBitShifts_defined, true_and]
      split
      · exact readBitsShifts_defined _ (by omega)
      · simp only [defined_append, readBitShifts_defined, true_and]
        split <;> exact readBitsShifts_defined _ (by omega)

theorem readDeltaOfDelta_rest :
    (readDeltaOfDelta r).2.rest = r.rest.drop (deltaWidth r.rest) := by
  unfold readDeltaOfDelta deltaWidth
  simp only [readBit_fst, readBit_rest, getD_drop, drop_drop]
  split
  · exact readBit_rest r
  · split
    · simp only [readBits_rest, readBit_rest, drop_drop]
    · split
      · simp only [readBits_rest, readBit_rest, drop_drop]
      · split <;> simp only [readBits_rest, readBit_rest, drop_drop]

theorem readValueBits_cases (prevValueBits : BitVec 64) :
    ((valueHeader r.rest).Shiftable ∧ ∃ valueBits r',
      readValueBits r prevValueBits = .ok (valueBits, r') ∧
      r'.rest = r.rest.drop (valueHeader r.rest).width) ∨ (¬ (valueHeader r.rest).Shiftable ∧
      ∃ count, readValueBits r prevValueBits = .error (.undefinedShift count)) := by
  unfold readValueBits valueHeader shiftLeft
  simp only [readBit_fst, readBits_fst, readBits_rest,
    readBit_rest, getD_drop, drop_drop, Nat.reduceAdd]
  split
  · exact .inl ⟨trivial, _, _, rfl, readBit_rest r⟩
  · split
    · refine .inl ⟨trivial, _, _, rfl, ?_⟩
      simp only [readBits_rest, readBit_rest, drop_drop, ValueHeader.width]
    · simp only [ValueHeader.Shiftable, ValueHeader.width]
      split
      · rename_i shifted ok
        split at ok
        · refine .inl ⟨by omega, _, _, rfl, ?_⟩
          simp only [readBits_rest, readBit_rest, drop_drop]
        · cases ok
      · rename_i fault failed
        split at failed
        · cases failed
        · cases failed
          exact .inr ⟨by omega, _, rfl⟩

theorem valueShifts_defined_iff :
    Defined (valueShifts r) ↔ (valueHeader r.rest).Shiftable := by
  have narrow := fun r : BitReader => r.readBits_lt 3
  have wide := fun r : BitReader => r.readBits_lt 6
  unfold valueShifts valueHeader
  simp only [readBit_fst, getD_drop, readBit_rest, defined_append,
    readBitShifts_defined, true_and]
  split
  · simp [ValueHeader.Shiftable]
  · simp only [defined_append, readBitShifts_defined, true_and]
    split
    · simp only [defined_append, ValueHeader.Shiftable, iff_true]
      exact ⟨readBitsShifts_defined _ (by omega),
        readBitsShifts_defined _ (by have := narrow r.readBit.2.readBit.2; omega)⟩
    · have significant := wide (r.readBit.2.readBit.2.readBits 6).2
      have data := fun r' : BitReader => r'.readBitsShifts_defined
        (show ((r.readBit.2.readBit.2.readBits 6).2.readBits 6).1.toNat ≤ 64 by omega)
      have six := fun r : BitReader => r.readBitsShifts_defined (show 6 ≤ 64 by omega)
      simp only [defined_append, defined_singleton, six, data, true_and]
      simp only [ValueHeader.Shiftable, readBits_fst, readBits_rest,
        readBit_rest, drop_drop, Nat.reduceAdd]
      omega

theorem decompressLoop_cases : ∀ (r : BitReader) (prev : Prev),
    ((∀ header ∈ headers r.rest n, header.Shiftable) ∧ Defined (loopShifts r prev.valueBits n) ∧
      ∃ points, decompressLoop r prev n = .ok points ∧ points.length = n) ∨
    (¬ (∀ header ∈ headers r.rest n, header.Shiftable) ∧ ¬ Defined (loopShifts r prev.valueBits n) ∧
      ∃ count, decompressLoop r prev n = .error (.undefinedShift count)) := by
  induction n with
  | zero =>
    intro r prev
    exact .inl ⟨by simp [headers], defined_nil, [], rfl, rfl⟩
  | succ n ih =>
    intro r prev
    have value := readValueBits_cases (readDeltaOfDelta r).2 prev.valueBits
    have shifts := valueShifts_defined_iff (readDeltaOfDelta r).2
    simp only [readDeltaOfDelta_rest] at value shifts
    simp only [headers, loopShifts, decompressLoop, forall_mem_cons, defined_append,
      deltaShifts_defined, shifts, true_and]
    rcases value with ⟨shiftable, valueBits, r', read, after⟩ | ⟨undefined, count, read⟩
    · have rest := ih r' ⟨prev.timestamp + (prev.delta + (readDeltaOfDelta r).1),
        prev.delta + (readDeltaOfDelta r).1, valueBits⟩
      rw [after] at rest
      simp only [read, shiftable, true_and]
      rcases rest with ⟨all, defined, points, ok, length⟩ | ⟨some, undefined, count, failed⟩
      · rw [ok]
        exact .inl ⟨all, defined, _, rfl, by rw [length_cons, length]⟩
      · rw [failed]
        exact .inr ⟨some, undefined, count, rfl⟩
    · simp only [read, undefined, false_and, not_false_iff, true_and]
      exact .inr ⟨count, rfl⟩

theorem decompress_cases {data : List (BitVec 8)} (ne : data ≠ []) :
    ((∀ header ∈ valueHeaders data, header.Shiftable) ∧ Defined (decompressShifts data) ∧
      ∃ points, decompress data = .ok points ∧ points.length = announced data - 1 + 1) ∨
    (¬ (∀ header ∈ valueHeaders data, header.Shiftable) ∧ ¬ Defined (decompressShifts data) ∧
      ∃ count, decompress data = .error (.undefinedShift count)) := by
  have start : rest ⟨data, 0⟩ = unpack data := drop_zero
  have some : data.length ≠ 0 := fun h => ne (length_eq_zero_iff.mp h)
  have whole := fun r : BitReader => r.readBitsShifts_defined (show 64 ≤ 64 by omega)
  have word := fun r : BitReader => r.readBitsShifts_defined (show 32 ≤ 64 by omega)
  have loop := decompressLoop_cases (announced data - 1)
    (((readBits ⟨data, 0⟩ 32).2.readBits 64).2.readBits 64).2
    ⟨((readBits ⟨data, 0⟩ 32).2.readBits 64).1, 0#64,
      (((readBits ⟨data, 0⟩ 32).2.readBits 64).2.readBits 64).1⟩
  simp only [readBits_rest, start, drop_drop] at loop
  have count : (readBits ⟨data, 0⟩ 32).1.toNat = announced data := by
    rw [readBits_fst, start, announced]
  simp only [decompressShifts, decompress, some, if_false, defined_append, whole, word, true_and,
    count, valueHeaders]
  rcases loop with ⟨all, defined, points, ok, length⟩ | ⟨bad, undefined, shift, failed⟩
  · simp only [ok]
    exact .inl ⟨all, defined, _, rfl, by rw [length_cons, length]⟩
  · simp only [failed]
    exact .inr ⟨bad, undefined, shift, rfl⟩

/-- A byte string is decoded without a panic and without an undefined shift exactly when it is
    empty, or announces at most `2 ^ 20` points and no long header whose leading zeros and
    significant bits make 0 or more than 64. -/
theorem goDecompress_safe_iff (data : List (BitVec 8)) :
    (((∃ points, goDecompress data = .ok points) ∨
        ∃ message, goDecompress data = .error (.error message)) ∧
      ∀ count ∈ decompressShifts data, 0 ≤ count ∧ count ≤ 63) ↔
    data = [] ∨
      (announced data ≤ 2 ^ 20 ∧ ∀ header ∈ valueHeaders data, header.Shiftable) := by
  by_cases empty : data = []
  · subst empty
    simp [goDecompress, decompressShifts]
  · have some : data.length ≠ 0 := fun h => empty (length_eq_zero_iff.mp h)
    simp only [empty, false_or]
    rcases decompress_cases empty with
      ⟨all, defined, points, ok, length⟩ | ⟨bad, undefined, shift, failed⟩
    · simp only [goDecompress, some, if_false, ok, length]
      constructor
      · rintro ⟨returned, _⟩
        refine ⟨?_, all⟩
        by_contra above
        have panics : ¬ announced data - 1 + 1 ≤ 2 ^ 20 := by omega
        rw [if_neg panics] at returned
        rcases returned with ⟨_, h⟩ | ⟨_, h⟩ <;> cases h
      · rintro ⟨fits, _⟩
        have sliced : announced data - 1 + 1 ≤ 2 ^ 20 := by omega
        exact ⟨.inl ⟨points, if_pos sliced⟩, defined⟩
    · exact iff_of_false (fun safe => undefined safe.2) (fun held => bad held.2)

theorem headers_nil_shiftable : ∀ header ∈ headers [] n, header.Shiftable := by
  induction n with
  | zero => simp [headers]
  | succ n ih =>
    rw [headers, forall_mem_cons]
    exact ⟨trivial, ih⟩

/-- Four bytes announce one point more than the sliced array holds, and the call panics. A record
    with an empty long header is shifted by 64, one that announces 63 and 63 by a negative
    count. -/
theorem goDecompress_unsafe :
    goDecompress [1#8, 0#8, 16#8, 0#8] = .error (.panic "slice bounds out of range") ∧
    goDecompress ([2#8, 0#8, 0#8, 0#8] ++ List.replicate 16 0#8 ++ [6#8, 0#8]) =
      .error (.undefinedShift 64) ∧
    goDecompress ([2#8, 0#8, 0#8, 0#8] ++ List.replicate 16 0#8 ++ [254#8, 127#8]) =
      .error (.undefinedShift (-62)) := by
  have behind : valueHeaders [1#8, 0#8, 16#8, 0#8] = headers [] (2 ^ 20) := rfl
  have count : announced [1#8, 0#8, 16#8, 0#8] = 2 ^ 20 + 1 := by decide +kernel
  have nonempty : [1#8, 0#8, 16#8, 0#8] ≠ [] := by simp
  refine ⟨?_, by decide +kernel, by decide +kernel⟩
  rcases decompress_cases nonempty with ⟨_, _, points, ok, length⟩ | ⟨bad, _⟩
  · have long : ¬ points.length ≤ 2 ^ 20 := by omega
    simp only [goDecompress, ok, if_neg long]
    rfl
  · exact absurd (behind ▸ headers_nil_shiftable (2 ^ 20)) bad

end Monitor.Gorilla
