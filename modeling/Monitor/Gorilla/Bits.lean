import Monitor.Lib.BitStream

/-! # The bit layer of the Gorilla codec

`BitWriter` and `BitReader` as `gorilla.cpp` has them: a byte vector with a bit
cursor on the writing side, a byte range with a bit cursor on the reading side.
The writer carries the two facts the codec rests on, that its buffer is exactly
as long as its bits need and that no bit behind the cursor is set. Both sides
are related to plain lists of bits: `BitWriter.bits` is what has been written,
`BitReader.rest` is what is still to be read.
-/

namespace Monitor.Gorilla

open BitStream List

/-- The buffer after `writeBit` at cursor `pos`: grow by a zero byte when the
    cursor stands behind the last byte, then set the bit if it is one. -/
def storeBit (buffer : List (BitVec 8)) (pos : Nat) (bit : Bool) : List (BitVec 8) :=
  let bytePos := pos / 8
  let bitOffset := pos % 8
  let grown := if bytePos ≥ buffer.length then buffer ++ [0#8] else buffer
  if bit then grown.modify bytePos (· ||| (1#8 <<< bitOffset)) else grown

theorem bitAt_grow (buffer : List (BitVec 8)) (i : Nat) :
    bitAt (buffer ++ [0#8]) i = bitAt buffer i := by
  simp only [bitAt, getElem?_append]
  split
  · rfl
  · rename_i outside
    rw [getElem?_eq_none (Nat.le_of_not_lt outside)]
    cases i / 8 - buffer.length <;> simp

variable {buffer : List (BitVec 8)} {bit : Bool} {pos : Nat}

theorem storeBit_length
    (sized : buffer.length = (pos + 7) / 8) : (storeBit buffer pos bit).length = (pos + 1 + 7) / 8 := by
  have grown : (if pos / 8 ≥ buffer.length then buffer ++ [0#8] else buffer).length =
      (pos + 1 + 7) / 8 := by
    split
    · rw [length_append, length_singleton]
      omega
    · omega
  cases bit with
  | false => exact grown
  | true => simpa only [storeBit, if_true, length_modify] using grown

theorem bitAt_modify (reach : pos / 8 < buffer.length)
    (i : Nat) : bitAt (buffer.modify (pos / 8) (· ||| (1#8 <<< (pos % 8)))) i =
      (bitAt buffer i || decide (i = pos)) := by
  have single : (1#8 <<< (pos % 8)).getLsbD (i % 8) = decide (i % 8 = pos % 8) := by
    have h1 : i % 8 < 8 := Nat.mod_lt _ (by decide)
    have h2 : pos % 8 < 8 := Nat.mod_lt _ (by decide)
    by_cases h : i % 8 = pos % 8
    · simp [h, h2]
    · simp [h, h1]
      omega
  simp only [bitAt, getElem?_modify]
  by_cases same : pos / 8 = i / 8
  · rw [same] at reach
    have iff : (i % 8 = pos % 8) ↔ i = pos := by omega
    simp [same, getElem?_eq_getElem reach, single, iff]
  · have different : i ≠ pos := fun h => same (by rw [h])
    simp [same, different]

theorem bitAt_storeBit
    (sized : buffer.length = (pos + 7) / 8) (i : Nat) :
    bitAt (storeBit buffer pos bit) i = (bitAt buffer i || (bit && decide (i = pos))) := by
  cases bit with
  | false =>
    simp only [storeBit, Bool.false_eq_true, if_false, Bool.false_and, Bool.or_false]
    split
    · exact bitAt_grow buffer i
    · rfl
  | true =>
    simp only [storeBit, if_true, Bool.true_and]
    split
    · rw [bitAt_modify (by simp only [length_append, length_singleton]; omega), bitAt_grow]
    · exact bitAt_modify (by omega) i

/-- `BitWriter`. -/
structure BitWriter where
  buffer : List (BitVec 8)
  bitPosition : Nat
  sized : buffer.length = (bitPosition + 7) / 8
  clean : ∀ i, bitPosition ≤ i → bitAt buffer i = false

variable (w : BitWriter)

namespace BitWriter

def empty : BitWriter where
  buffer := []
  bitPosition := 0
  sized := rfl
  clean := by intro i _; simp [bitAt]

def writeBit (w : BitWriter) (bit : Bool) : BitWriter where
  buffer := storeBit w.buffer w.bitPosition bit
  bitPosition := w.bitPosition + 1
  sized := storeBit_length w.sized
  clean := by
    intro i behind
    rw [bitAt_storeBit w.sized, w.clean i (by omega)]
    simp only [Bool.false_or, Bool.and_eq_false_iff, decide_eq_false_iff_not]
    exact .inr (by omega)

/-- The loop over `i < bits` that writes `(value >> i) & 1`. -/
def writeBits (w : BitWriter) (value : BitVec 64) (bits : Nat) : BitWriter :=
  (List.range bits).foldl (fun w i => w.writeBit ((value >>> i) &&& 1#64 == 1#64)) w

def bits (w : BitWriter) : List Bool :=
  (List.range w.bitPosition).map (bitAt w.buffer)

@[simp] theorem bits_length : w.bits.length = w.bitPosition := by
  simp [bits]

@[simp] theorem writeBit_bits (bit : Bool) :
    (w.writeBit bit).bits = w.bits ++ [bit] := by
  simp only [bits, writeBit, range_succ, map_append, map_cons, map_nil]
  congr 1
  · apply map_congr_left
    intro i mem
    rw [bitAt_storeBit w.sized]
    have different : i ≠ w.bitPosition := (mem_range.mp mem).ne
    simp [different]
  · rw [bitAt_storeBit w.sized, w.clean w.bitPosition le_rfl]
    simp

theorem shifted_bit (value : BitVec 64) (i : Nat) :
    ((value >>> i) &&& 1#64 == 1#64) = value.getLsbD i := by
  rw [BitVec.and_one_eq_setWidth_ofBool_getLsbD]
  cases h : (value >>> i).getLsbD 0 <;>
    simp only [BitVec.getLsbD_ushiftRight, Nat.add_zero] at h <;> simp [h]

@[simp] theorem writeBits_bits (value : BitVec 64) (n : Nat) :
    (w.writeBits value n).bits = w.bits ++ field value n := by
  induction n with
  | zero => simp [writeBits]
  | succ n ih =>
    simp only [writeBits] at ih
    rw [writeBits, range_succ, foldl_append, foldl_cons, foldl_nil,
      writeBit_bits, ih, shifted_bit, field_succ, append_assoc]

theorem unpack_buffer : ∃ padding, unpack w.buffer = w.bits ++ padding := by
  refine ⟨(range' w.bitPosition (8 * w.buffer.length - w.bitPosition)).map (bitAt w.buffer), ?_⟩
  have room : w.bitPosition ≤ 8 * w.buffer.length := by
    rw [w.sized]
    omega
  have whole : range (8 * w.buffer.length) = range w.bitPosition ++
      range' w.bitPosition (8 * w.buffer.length - w.bitPosition) := by
    rw [range_eq_range', range_eq_range']
    have joined := range'_append_1 (s := 0) (m := w.bitPosition)
      (n := 8 * w.buffer.length - w.bitPosition)
    rw [Nat.zero_add, Nat.add_sub_cancel' room] at joined
    exact joined.symm
  simp only [unpack, bits, whole, map_append]

end BitWriter

/-- `BitReader`, without the point counters that `decompress` runs its loop by. -/
structure BitReader where
  buffer : List (BitVec 8)
  bitPosition : Nat

namespace BitReader

/-- The cursor stays where it is once the buffer is used up. -/
def readBit (r : BitReader) : Bool × BitReader :=
  if r.bitPosition / 8 ≥ r.buffer.length then
    (false, r)
  else
    (bitAt r.buffer r.bitPosition, { r with bitPosition := r.bitPosition + 1 })

/-- The loop over `i < bits` that sets bit `i` of the result for each one read. -/
def readBits (r : BitReader) (bits : Nat) : BitVec 64 × BitReader :=
  (List.range bits).foldl
    (fun (value, r) i =>
      let (bit, r') := r.readBit
      (if bit then value ||| (1#64 <<< i) else value, r'))
    (0#64, r)

def rest (r : BitReader) : List Bool :=
  (unpack r.buffer).drop r.bitPosition

theorem readBit_spec (r : BitReader) :
    r.readBit.1 = r.rest.getD 0 false ∧ r.readBit.2.rest = r.rest.drop 1 := by
  have head : r.rest.getD 0 false = bitAt r.buffer r.bitPosition := by
    rw [← unpack_getD]
    simp [rest, getD_eq_getElem?_getD]
  rw [head]
  by_cases done : r.bitPosition / 8 ≥ r.buffer.length
  · have empty : r.rest = [] := by
      apply drop_eq_nil_of_le
      simp only [unpack_length]
      omega
    simp only [readBit, done, if_true, empty, drop_nil, and_true]
    exact (bitAt_beyond (by omega)).symm
  · simp only [readBit, done, if_false, true_and]
    simp [rest]

theorem readBits_spec (r : BitReader) (n : Nat) :
    (r.readBits n).1 = gather r.rest n ∧ (r.readBits n).2.rest = r.rest.drop n := by
  induction n with
  | zero => simp [readBits, gather]
  | succ n ih =>
    have step : r.readBits (n + 1) =
        (if (r.readBits n).2.readBit.1 then (r.readBits n).1 ||| (1#64 <<< n)
          else (r.readBits n).1, (r.readBits n).2.readBit.2) := by
      rw [readBits, range_succ, foldl_append]
      rfl
    obtain ⟨bit, tail⟩ := readBit_spec (r.readBits n).2
    rw [step, tail, bit, ih.1, ih.2]
    simp [gather, getD_eq_getElem?_getD]

theorem rest_of_writer :
    ∃ padding, BitReader.rest ⟨w.buffer, 0⟩ = w.bits ++ padding := by
  obtain ⟨padding, h⟩ := w.unpack_buffer
  exact ⟨padding, by simpa only [rest, drop_zero] using h⟩

variable {tail : List Bool} {r : BitReader}

theorem readBits_field {v : BitVec 64} {n : Nat}
    (fits : v.toNat < 2 ^ n) (stream : r.rest = field v n ++ tail) :
    (r.readBits n).1 = v ∧ (r.readBits n).2.rest = tail := by
  obtain ⟨value, after⟩ := readBits_spec r n
  refine ⟨?_, ?_⟩
  · rw [value, stream, gather_field_of_lt fits]
  · rw [after, stream, drop_left' (field_length v n)]

theorem readBit_cons
    (stream : r.rest = bit :: tail) : r.readBit.1 = bit ∧ r.readBit.2.rest = tail := by
  obtain ⟨head, after⟩ := readBit_spec r
  refine ⟨?_, ?_⟩
  · rw [head, stream]
    rfl
  · rw [after, stream]
    rfl

end BitReader

end Monitor.Gorilla
