import Monitor.Gorilla.RoundTrip

/-! # The value field alone

One value field between arbitrary other fields of a stream. `BitReader.rest` says what a
reader will see; here the cursor itself is followed as well, so that "exactly the bits
that were written" is a statement about positions in the buffer.
-/

namespace Monitor.Gorilla

open BitStream List BitReader BitWriter

namespace BitReader

/-- The reader `r'` stands further on in the buffer of `r`, and not behind its end. -/
structure Within (r r' : BitReader) : Prop where
  buffer : r'.buffer = r.buffer
  inside : r.bitPosition ≤ 8 * r.buffer.length → r'.bitPosition ≤ 8 * r.buffer.length

theorem Within.refl (r : BitReader) : Within r r := ⟨rfl, fun h => h⟩

theorem Within.trans {r r' r'' : BitReader} (first : Within r r') (second : Within r' r'') :
    Within r r'' where
  buffer := second.buffer.trans first.buffer
  inside := by
    intro inside
    have later := second.inside
    simp only [first.buffer] at later
    exact later (first.inside inside)

theorem readBit_within (r : BitReader) : Within r r.readBit.2 := by
  unfold readBit
  split
  · exact Within.refl r
  · exact ⟨rfl, fun _ => by grind⟩

theorem readBits_within (r : BitReader) (n : Nat) : Within r (r.readBits n).2 := by
  induction n with
  | zero => exact Within.refl r
  | succ n ih =>
    have step : (r.readBits (n + 1)).2 = (r.readBits n).2.readBit.2 := by
      simp only [readBits, range_succ, foldl_append, foldl_cons, foldl_nil]
    simpa only [step] using ih.trans (readBit_within _)

theorem position_of_rest {r : BitReader} (inside : r.bitPosition ≤ 8 * r.buffer.length) :
    r.bitPosition + r.rest.length = 8 * r.buffer.length := by
  simp only [rest, length_drop, unpack_length]
  omega

end BitReader

theorem readValueBits_within {r r' : BitReader} {prevValueBits v : BitVec 64}
    (read : readValueBits r prevValueBits = .ok (v, r')) : r.Within r' := by
  unfold readValueBits at read
  have first := readBit_within r
  cases unchanged : r.readBit.1 with
  | false =>
    simp only [unchanged, Bool.not_false, if_true, Except.ok.injEq, Prod.mk.injEq] at read
    exact read.2 ▸ first
  | true =>
    have second := first.trans (readBit_within r.readBit.2)
    simp only [unchanged, Bool.not_true, Bool.false_eq_true, if_false] at read
    cases long : r.readBit.2.readBit.1 with
    | false =>
      simp only [long, Bool.not_false, if_true, Except.ok.injEq, Prod.mk.injEq] at read
      exact read.2 ▸ (second.trans (readBits_within _ 3)).trans
        (readBits_within _ _)
    | true =>
      simp only [long, Bool.not_true, Bool.false_eq_true, if_false] at read
      split at read
      · simp only [Except.ok.injEq, Prod.mk.injEq] at read
        exact read.2 ▸ ((second.trans (readBits_within _ 6)).trans
          (readBits_within _ 6)).trans (readBits_within _ _)
      · cases read

/-- The buffer once `more` has been written behind `w`. -/
def BitWriter.continued (w : BitWriter) (more : List Bool) : List (BitVec 8) :=
  (more.foldl BitWriter.writeBit w).buffer

theorem BitWriter.foldl_writeBit_bits (w : BitWriter) (more : List Bool) :
    (more.foldl writeBit w).bits = w.bits ++ more := by
  induction more generalizing w with
  | nil => simp
  | cons bit more ih => simp [ih]

theorem BitReader.rest_of_continued {w w' : BitWriter} {code : List Bool}
    (written : w'.bits = w.bits ++ code) (more : List Bool) :
    ∃ tail, rest ⟨w'.continued more, w.bitPosition⟩ = code ++ tail ∧
      w.bitPosition ≤ 8 * (w'.continued more).length ∧
      w'.bitPosition + tail.length = 8 * (w'.continued more).length := by
  obtain ⟨padding, stream⟩ := (more.foldl writeBit w').unpack_buffer
  simp only [foldl_writeBit_bits, written, append_assoc] at stream
  have length := congrArg List.length stream
  have start := congrArg List.length written
  simp only [unpack_length, length_append, bits_length] at length start
  have rest : (unpack (w'.continued more)).drop w.bitPosition = code ++ (more ++ padding) := by
    simp only [continued, stream]
    exact drop_left' w.bits_length
  have tail : (more ++ padding).length = more.length + padding.length := length_append
  unfold continued at rest ⊢
  exact ⟨more ++ padding, rest, by omega, by omega⟩

/-- A value field is read back, and the cursor ends where the encoder's did, exactly when the
    xor of the two patterns is one the two formats can carry. -/
theorem valueField_iff (w : BitWriter) (prevValueBits valueBits : BitVec 64) (more : List Bool) :
    readValueBits ⟨(writeXor w (valueBits ^^^ prevValueBits)).continued more, w.bitPosition⟩
        prevValueBits =
      .ok (valueBits, ⟨(writeXor w (valueBits ^^^ prevValueBits)).continued more,
        (writeXor w (valueBits ^^^ prevValueBits)).bitPosition⟩) ↔
    XorSurvives (valueBits ^^^ prevValueBits) := by
  obtain ⟨tail, stream, inside, size⟩ :=
    BitReader.rest_of_continued (writeXor_bits w (valueBits ^^^ prevValueBits)) more
  have value : prevValueBits ^^^ (valueBits ^^^ prevValueBits) = valueBits := by
    rw [BitVec.xor_comm valueBits, ← BitVec.xor_assoc, BitVec.xor_self, BitVec.zero_xor]
  constructor
  · intro read
    by_contra lost
    exact readValueBits_lost lost stream read value.symm
  · intro survives
    obtain ⟨r', read, after⟩ := readValueBits_survives prevValueBits survives stream
    have within := readValueBits_within read
    have position := BitReader.position_of_rest (r := r') (by
      rw [within.buffer]
      exact within.inside inside)
    rw [after, within.buffer] at position
    have same : r' = ⟨(writeXor w (valueBits ^^^ prevValueBits)).continued more,
        (writeXor w (valueBits ^^^ prevValueBits)).bitPosition⟩ := by
      cases r'
      simp only [BitReader.mk.injEq]
      exact ⟨within.buffer, by simp only at position; omega⟩
    rw [read, same, value]

/-- From 0 to 2 the short format drops the trailing zero and 1 comes back; from 0 to a pattern
    with its first and last bit set the long format announces no bits at all. -/
theorem valueField_lost :
    (readValueBits ⟨(writeXor .empty (2#64 ^^^ 0#64)).continued [], 0⟩ 0#64).map Prod.fst =
      .ok 1#64 ∧
    (readValueBits ⟨(writeXor .empty (2#64 ^^^ 0#64)).continued [], 0⟩ 0#64).map Prod.fst ≠
      .ok 2#64 ∧
    (readValueBits ⟨(writeXor .empty (0x8000000000000001#64 ^^^ 0#64)).continued [], 0⟩
      0#64).map Prod.fst = .error (.undefinedShift 64) := by
  decide +kernel

end Monitor.Gorilla
