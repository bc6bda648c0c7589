import Monitor.Gorilla.Bits

/-! # Sequences of fields in the bit layer

Any sequence of `writeBit` and `writeBits` calls, read back by calls of the same widths. The
constructor of `BitReader` is the first of these calls: it reads the 32 bits of the point count.
-/

namespace Monitor.Gorilla

open BitStream List

/-- A call of `readBit` or `readBits`. -/
inductive Read where
  | bit
  | bits (width : Fin 65)

/-- A call of `writeBit` or `writeBits`. -/
inductive Write where
  | bit (flag : Bool)
  | bits (value : BitVec 64) (width : Fin 65)

namespace Write

def width : Write → Nat
  | .bit _ => 1
  | .bits _ width => width

def read : Write → Read
  | .bit _ => .bit
  | .bits _ width => .bits width

/-- The value modulo `2 ^ width`. -/
def kept : Write → Nat
  | .bit flag => flag.toNat
  | .bits value width => value.toNat % 2 ^ width.val

def field : Write → List Bool
  | .bit flag => [flag]
  | .bits value width => BitStream.field value width

theorem field_length (write : Write) : write.field.length = write.width := by
  cases write with
  | bit flag => rfl
  | bits value width => exact BitStream.field_length value width

end Write

variable (writes : List Write)

namespace BitWriter

def perform (w : BitWriter) : Write → BitWriter
  | .bit flag => w.writeBit flag
  | .bits value width => w.writeBits value width

def written (writes : List Write) : BitWriter := writes.foldl perform empty

theorem perform_bits (w : BitWriter) (write : Write) : (w.perform write).bits = w.bits ++ write.field := by
  cases write with
  | bit flag => exact writeBit_bits w flag
  | bits value width => exact writeBits_bits w value width

theorem written_bits : (written writes).bits = writes.flatMap Write.field := by
  have all : ∀ w : BitWriter, (writes.foldl perform w).bits = w.bits ++ writes.flatMap Write.field := by
    induction writes with
    | nil => exact fun w => (append_nil w.bits).symm
    | cons write writes ih =>
      intro w
      rw [foldl_cons, ih, perform_bits, flatMap_cons, append_assoc]
  exact all empty

theorem written_position :
    (written writes).bitPosition = (writes.map Write.width).sum := by
  rw [← bits_length, written_bits, length_flatMap]
  simp only [Write.field_length]

end BitWriter

namespace BitReader

def perform (r : BitReader) : Read → Nat × BitReader
  | .bit => (r.readBit.1.toNat, r.readBit.2)
  | .bits width => ((r.readBits width).1.toNat, (r.readBits width).2)

/-- The results of a sequence of calls, and the reader behind it. -/
def performAll (r : BitReader) : List Read → List Nat × BitReader
  | [] => ([], r)
  | read :: reads =>
    let (value, r) := r.perform read
    let (values, r) := r.performAll reads
    (value :: values, r)

/-- The constructor: the point count and the reader behind it. -/
def new (data : List (BitVec 8)) : BitVec 64 × BitReader := BitReader.readBits ⟨data, 0⟩ 32

theorem perform_field {r : BitReader} {write : Write} {tail : List Bool}
    (stream : r.rest = write.field ++ tail) :
    (r.perform write.read).1 = write.kept ∧ (r.perform write.read).2.rest = tail := by
  cases write with
  | bit flag =>
    obtain ⟨value, after⟩ := readBit_cons stream
    exact ⟨congrArg Bool.toNat value, after⟩
  | bits value width =>
    obtain ⟨result, after⟩ := readBits_spec r width
    rw [stream] at result after
    constructor
    · calc (r.readBits width).1.toNat = (gather (field value width ++ tail) width : BitVec 64).toNat :=
            congrArg BitVec.toNat result
        _ = value.toNat % 2 ^ width.val := by
            rw [gather_field, BitVec.toNat_setWidth, BitVec.toNat_setWidth]
            exact Nat.mod_eq_of_lt ((Nat.mod_le _ _).trans_lt value.isLt)
    · exact after.trans (drop_left' (field_length value width))

theorem performAll_fields {writes : List Write} : ∀ {r : BitReader} {tail : List Bool},
    r.rest = writes.flatMap Write.field ++ tail →
      (r.performAll (writes.map Write.read)).1 = writes.map Write.kept ∧
        (r.performAll (writes.map Write.read)).2.rest = tail := by
  induction writes with
  | nil => exact fun stream => ⟨rfl, stream⟩
  | cons write writes ih =>
    intro r tail stream
    rw [flatMap_cons, append_assoc] at stream
    obtain ⟨value, after⟩ := perform_field stream
    obtain ⟨values, behind⟩ := ih after
    exact ⟨congrArg₂ cons value values, behind⟩

theorem perform_zero {r : BitReader} (zero : ∀ i, r.rest.getD i false = false) (read : Read) :
    (r.perform read).1 = 0 ∧ ∀ i, (r.perform read).2.rest.getD i false = false := by
  cases read with
  | bit =>
    obtain ⟨value, after⟩ := readBit_spec r
    refine ⟨congrArg Bool.toNat (value.trans (zero 0)), fun i => ?_⟩
    exact (congrArg (·.getD i false) after).trans ((getD_drop _ _ _).trans (zero _))
  | bits width =>
    obtain ⟨value, after⟩ := readBits_spec r width
    have none : (gather r.rest width : BitVec 64) = 0#64 := by
      apply BitVec.eq_of_getLsbD_eq
      intro i _
      rw [getLsbD_gather, zero, Bool.and_false, BitVec.getLsbD_zero]
    refine ⟨congrArg BitVec.toNat (value.trans none), fun i => ?_⟩
    exact (congrArg (·.getD i false) after).trans ((getD_drop _ _ _).trans (zero _))

theorem performAll_zero (reads : List Read) : ∀ {r : BitReader},
    (∀ i, r.rest.getD i false = false) → (r.performAll reads).1 = reads.map fun _ => 0 := by
  induction reads with
  | nil => exact fun _ => rfl
  | cons read reads ih =>
    intro r zero
    obtain ⟨value, after⟩ := perform_zero zero read
    exact congrArg₂ cons value (ih after)

theorem rest_past_end {r : BitReader} (past : 8 * r.buffer.length ≤ r.bitPosition) (i : Nat) :
    r.rest.getD i false = false := by
  rw [rest, getD_drop, unpack_getD]
  exact bitAt_beyond (Nat.le_add_right_of_le past)

end BitReader

open BitWriter BitReader

theorem rest_written : ∃ padding : List Bool,
    BitReader.rest ⟨(written writes).buffer, 0⟩ = writes.flatMap Write.field ++ padding ∧
      ∀ i, padding.getD i false = false := by
  obtain ⟨padding, stream⟩ := rest_of_writer (written writes)
  rw [written_bits] at stream
  refine ⟨padding, stream, fun i => ?_⟩
  have length : (writes.flatMap Write.field).length = (written writes).bitPosition := by
    rw [← written_bits, bits_length]
  have position : padding.getD i false =
      (unpack (written writes).buffer).getD ((written writes).bitPosition + i) false := by
    rw [← getD_drop, ← length, ← @drop_left _ (writes.flatMap Write.field) padding, ← stream]
    rfl
  rw [position, unpack_getD]
  exact (written writes).clean _ (Nat.le_add_right _ _)

/-- For every sequence of writes: the byte count; the values read back, by calls of the same widths or
    by the constructor and the calls behind it where the first field is 32 bits wide; and zeros from
    every call behind them and from every call past the end of any buffer. -/
theorem performAll_written (writes : List Write) :
    (written writes).buffer.length = ((writes.map Write.width).sum + 7) / 8 ∧
    (performAll ⟨(written writes).buffer, 0⟩ (writes.map Write.read)).1 = writes.map Write.kept ∧
    (∀ reads, (performAll (performAll ⟨(written writes).buffer, 0⟩ (writes.map Write.read)).2 reads).1 =
      reads.map fun _ => 0) ∧
    (∀ value later, writes = .bits value 32 :: later →
      (new (written writes).buffer).1.toNat = value.toNat % 2 ^ 32 ∧
        (performAll (new (written writes).buffer).2 (later.map Write.read)).1 = later.map Write.kept) ∧
    ∀ r : BitReader, 8 * r.buffer.length ≤ r.bitPosition →
      ∀ reads, (performAll r reads).1 = reads.map fun _ => 0 := by
  obtain ⟨padding, stream, zero⟩ := rest_written writes
  obtain ⟨values, behind⟩ := performAll_fields stream
  refine ⟨?_, values, fun reads => performAll_zero reads (behind ▸ zero), ?_, ?_⟩
  · rw [(written writes).sized, written_position]
  · rintro value later rfl
    obtain ⟨first, others⟩ := cons.inj values
    exact ⟨first, others⟩
  · exact fun r past reads => performAll_zero reads (rest_past_end past)

end Monitor.Gorilla
