import Monitor.Gorilla.Codec

/-! # Which point lists survive the Gorilla round trip

The control codes are written lowest bit first, so every code but `0b1111` starts
with the zero bit that the decoder takes for "delta unchanged". The short value
format does not carry the trailing zeros of the xor, and the long one cannot
announce 64 significant bits. The theorem below says that nothing else goes wrong:
the round trip is the identity exactly on the lists whose fields avoid these forms.
-/

namespace Monitor.Gorilla

open BitStream List BitReader BitWriter

def DeltaSurvives (d : BitVec 64) : Prop :=
  d = 0#64 ∨ d.toInt < -2047 ∨ 2048 < d.toInt

instance (d : BitVec 64) : Decidable (DeltaSurvives d) :=
  inferInstanceAs (Decidable (_ ∨ _ ∨ _))

def XorSurvives (x : BitVec 64) : Prop :=
  x = 0#64 ∨ (significantBits x ≤ 5 ∧ x.ctz.toNat = 0) ∨
    (6 ≤ significantBits x ∧ significantBits x ≤ 63)

instance (x : BitVec 64) : Decidable (XorSurvives x) :=
  inferInstanceAs (Decidable (_ ∨ _ ∨ _))

/-- Every field written behind `prev` is read back. -/
def Survives (prev : Prev) : List Point → Prop
  | [] => True
  | p :: points =>
    DeltaSurvives (p.timestamp - prev.timestamp - prev.delta) ∧
      XorSurvives (p.value ^^^ prev.valueBits) ∧
      Survives ⟨p.timestamp, p.timestamp - prev.timestamp, p.value⟩ points

instance decideSurvives (prev : Prev) : (points : List Point) → Decidable (Survives prev points)
  | [] => isTrue trivial
  | _ :: points => @instDecidableAnd _ _ _ (@instDecidableAnd _ _ _ (decideSurvives _ points))

def RoundTrips : List Point → Prop
  | [] => True
  | first :: rest => Survives ⟨first.timestamp, 0#64, first.value⟩ rest

instance : (points : List Point) → Decidable (RoundTrips points)
  | [] => isTrue trivial
  | _ :: rest => decideSurvives _ rest

-- The bits `writeDeltaOfDelta` appends.
def deltaCode (d : BitVec 64) : List Bool :=
  if d = 0#64 then
    [false]
  else if -63 ≤ d.toInt ∧ d.toInt ≤ 64 then
    field 0b10#64 2 ++ field (d + 63#64) 7
  else if -255 ≤ d.toInt ∧ d.toInt ≤ 256 then
    field 0b110#64 3 ++ field (d + 255#64) 9
  else if -2047 ≤ d.toInt ∧ d.toInt ≤ 2048 then
    field 0b1110#64 4 ++ field (d + 2047#64) 12
  else
    field 0b1111#64 4 ++ field d 64

-- The bits `writeXor` appends.
def xorCode (x : BitVec 64) : List Bool :=
  if x = 0#64 then
    [false]
  else if significantBits x ≤ 5 then
    true :: false :: (field (BitVec.ofNat 64 (significantBits x - 1)) 3 ++
      field (x >>> x.ctz.toNat) (significantBits x))
  else
    true :: true :: (field (BitVec.ofNat 64 x.clz.toNat) 6 ++
      (field (BitVec.ofNat 64 (significantBits x)) 6 ++ field (x >>> x.ctz.toNat) (significantBits x)))

def pointsCode (prev : Prev) : List Point → List Bool
  | [] => []
  | p :: points =>
    deltaCode (p.timestamp - prev.timestamp - prev.delta) ++
      (xorCode (p.value ^^^ prev.valueBits) ++
        pointsCode ⟨p.timestamp, p.timestamp - prev.timestamp, p.value⟩ points)

variable (w : BitWriter)

theorem writeDeltaOfDelta_bits (d : BitVec 64) :
    (writeDeltaOfDelta w d).bits = w.bits ++ deltaCode d := by
  simp only [writeDeltaOfDelta, deltaCode]
  split
  · exact writeBit_bits w false
  · split
    · simp
    · split
      · simp
      · split <;> simp

theorem writeXor_bits (x : BitVec 64) : (writeXor w x).bits = w.bits ++ xorCode x := by
  simp only [writeXor, xorCode]
  split
  · exact writeBit_bits w false
  · split <;> simp

theorem compressLoop_bits (prev : Prev) (points : List Point) :
    (compressLoop w prev points).bits = w.bits ++ pointsCode prev points := by
  induction points generalizing w prev with
  | nil => simp only [compressLoop, pointsCode, append_nil]
  | cons p points ih =>
    simp only [compressLoop, pointsCode, ih, writeXor_bits, writeDeltaOfDelta_bits, append_assoc]

variable {d x : BitVec 64} {r : BitReader}

theorem deltaCode_long (h : DeltaSurvives d) (nonzero : d ≠ 0#64) :
    deltaCode d = true :: true :: true :: true :: field d 64 := by
  have outside : ¬ (-2047 ≤ d.toInt ∧ d.toInt ≤ 2048) := by
    rcases h with zero | low | high
    · exact absurd zero nonzero
    · omega
    · omega
  have small : ¬ (-63 ≤ d.toInt ∧ d.toInt ≤ 64) := by omega
  have medium : ¬ (-255 ≤ d.toInt ∧ d.toInt ≤ 256) := by omega
  simp only [deltaCode, if_neg nonzero, if_neg small, if_neg medium, if_neg outside]
  rfl

theorem deltaCode_lost (h : ¬ DeltaSurvives d) : ∃ tail, deltaCode d = false :: tail := by
  simp only [DeltaSurvives, not_or, not_lt] at h
  obtain ⟨nonzero, low, high⟩ := h
  simp only [deltaCode, if_neg nonzero]
  split
  · exact ⟨_, rfl⟩
  · split
    · exact ⟨_, rfl⟩
    · exact ⟨_, by rw [if_pos ⟨low, high⟩]; rfl⟩

variable {tail : List Bool}

theorem readDeltaOfDelta_zero (stream : r.rest = false :: tail) :
    (readDeltaOfDelta r).1 = 0#64 ∧ (readDeltaOfDelta r).2.rest = tail := by
  obtain ⟨bit, after⟩ := readBit_cons stream
  simp only [readDeltaOfDelta, bit, Bool.not_false, if_true]
  exact ⟨trivial, after⟩

theorem readDeltaOfDelta_survives
    (h : DeltaSurvives d) (stream : r.rest = deltaCode d ++ tail) :
    (readDeltaOfDelta r).1 = d ∧ (readDeltaOfDelta r).2.rest = tail := by
  by_cases zero : d = 0#64
  · subst zero
    exact readDeltaOfDelta_zero (by simpa only [deltaCode, if_true, singleton_append] using stream)
  · rw [deltaCode_long h zero] at stream
    obtain ⟨bit1, rest1⟩ := readBit_cons stream
    obtain ⟨bit2, rest2⟩ := readBit_cons rest1
    obtain ⟨bit3, rest3⟩ := readBit_cons rest2
    obtain ⟨bit4, rest4⟩ := readBit_cons rest3
    simp only [readDeltaOfDelta, bit1, bit2, bit3, bit4, Bool.not_true, Bool.false_eq_true, if_false]
    exact readBits_field d.isLt rest4

theorem readDeltaOfDelta_lost
    (h : ¬ DeltaSurvives d) (stream : r.rest = deltaCode d ++ tail) : (readDeltaOfDelta r).1 ≠ d := by
  obtain ⟨code, starts⟩ := deltaCode_lost h
  rw [starts] at stream
  rw [(readDeltaOfDelta_zero stream).1]
  exact fun same => h (.inl same.symm)

theorem clz_add_ctz_lt (nonzero : x ≠ 0#64) : x.clz.toNat + x.ctz.toNat < 64 := by
  have low : 2 ^ x.ctz.toNat ≤ x.toNat := BitVec.two_pow_ctz_le_toNat_of_ne_zero nonzero
  have high : x.toNat < 2 ^ (64 - x.clz.toNat) := BitVec.toNat_lt_two_pow_sub_clz
  have exponents : x.ctz.toNat < 64 - x.clz.toNat :=
    (Nat.pow_lt_pow_iff_right (by decide)).mp (Nat.lt_of_le_of_lt low high)
  omega

theorem shifted_fits (nonzero : x ≠ 0#64) : (x >>> x.ctz.toNat).toNat < 2 ^ significantBits x := by
  have high : x.toNat < 2 ^ (64 - x.clz.toNat) := BitVec.toNat_lt_two_pow_sub_clz
  have room := clz_add_ctz_lt nonzero
  rw [BitVec.toNat_ushiftRight, Nat.shiftRight_eq_div_pow, significantBits,
    Nat.div_lt_iff_lt_mul (Nat.two_pow_pos _), ← Nat.pow_add]
  have sum : 64 - x.clz.toNat - x.ctz.toNat + x.ctz.toNat = 64 - x.clz.toNat := by omega
  rw [sum]
  exact high

theorem shifted_back (x : BitVec 64) : (x >>> x.ctz.toNat) <<< x.ctz.toNat = x := by
  apply BitVec.eq_of_getLsbD_eq
  intro i lt
  by_cases low : i < x.ctz.toNat
  · simp [low, BitVec.getLsbD_false_of_lt_ctz low]
  · have position : x.ctz.toNat + (i - x.ctz.toNat) = i := by omega
    simp [low, lt, position]

theorem shifted_ne (nonzero : x ≠ 0#64) (trailing : x.ctz.toNat ≠ 0) : x >>> x.ctz.toNat ≠ x := by
  intro same
  have pos : 0 < x.toNat := by
    rcases Nat.eq_zero_or_pos x.toNat with zero | pos
    · exact absurd (BitVec.eq_of_toNat_eq zero) nonzero
    · exact pos
  have smaller : x.toNat / 2 ^ x.ctz.toNat < x.toNat :=
    Nat.div_lt_self pos (Nat.one_lt_two_pow trailing)
  have shifted := congrArg BitVec.toNat same
  rw [BitVec.toNat_ushiftRight, Nat.shiftRight_eq_div_pow] at shifted
  omega

variable (prev : BitVec 64)

theorem readValueBits_short
    (nonzero : x ≠ 0#64) (short : significantBits x ≤ 5) (stream : r.rest = xorCode x ++ tail) :
    ∃ r', readValueBits r prev = .ok (prev ^^^ (x >>> x.ctz.toNat), r') ∧ r'.rest = tail := by
  have room := clz_add_ctz_lt nonzero
  have some_bits : 1 ≤ significantBits x := by
    simp only [significantBits]
    omega
  simp only [xorCode, if_neg nonzero, if_pos short, cons_append, append_assoc] at stream
  obtain ⟨bit1, rest1⟩ := readBit_cons stream
  obtain ⟨bit2, rest2⟩ := readBit_cons rest1
  have countFits : (BitVec.ofNat 64 (significantBits x - 1)).toNat < 2 ^ 3 := by
    rw [BitVec.toNat_ofNat, Nat.mod_eq_of_lt (by omega)]
    omega
  obtain ⟨count, rest3⟩ := readBits_field countFits rest2
  have width : (BitVec.ofNat 64 (significantBits x - 1)).toNat + 1 = significantBits x := by
    rw [BitVec.toNat_ofNat, Nat.mod_eq_of_lt (by omega)]
    omega
  obtain ⟨word, rest4⟩ := readBits_field (shifted_fits nonzero) rest3
  simp only [readValueBits, bit1, bit2, count, width, word, Bool.not_true, Bool.not_false,
    Bool.false_eq_true, if_false, if_true]
  exact ⟨_, rfl, rest4⟩

theorem readValueBits_long
    (nonzero : x ≠ 0#64) (long : 6 ≤ significantBits x) (fits : significantBits x ≤ 63)
    (stream : r.rest = xorCode x ++ tail) :
    ∃ r', readValueBits r prev = .ok (prev ^^^ x, r') ∧ r'.rest = tail := by
  have room := clz_add_ctz_lt nonzero
  have notShort : ¬ significantBits x ≤ 5 := by omega
  simp only [xorCode, if_neg nonzero, if_neg notShort, cons_append, append_assoc] at stream
  obtain ⟨bit1, rest1⟩ := readBit_cons stream
  obtain ⟨bit2, rest2⟩ := readBit_cons rest1
  have leadingValue : (BitVec.ofNat 64 x.clz.toNat).toNat = x.clz.toNat := by
    rw [BitVec.toNat_ofNat, Nat.mod_eq_of_lt (by omega)]
  have widthValue : (BitVec.ofNat 64 (significantBits x)).toNat = significantBits x := by
    rw [BitVec.toNat_ofNat, Nat.mod_eq_of_lt (by omega)]
  obtain ⟨leading, rest3⟩ := readBits_field (n := 6) (by omega) rest2
  obtain ⟨width, rest4⟩ := readBits_field (n := 6) (by omega) rest3
  obtain ⟨word, rest5⟩ := readBits_field (shifted_fits nonzero) rest4
  have count : (64 : Int) - (x.clz.toNat : Int) - (significantBits x : Int) =
      (x.ctz.toNat : Int) := by
    simp only [significantBits]
    omega
  have shift : shiftLeft (x >>> x.ctz.toNat) (x.ctz.toNat : Int) = .ok x := by
    have inRange : (0 : Int) ≤ (x.ctz.toNat : Int) ∧ (x.ctz.toNat : Int) < 64 := by omega
    simp only [shiftLeft, if_pos inRange, Int.toNat_natCast, shifted_back]
  simp only [readValueBits, bit1, bit2, leading, width, leadingValue, widthValue, word, count,
    shift, Bool.not_true, Bool.false_eq_true, if_false]
  exact ⟨_, rfl, rest5⟩

theorem readValueBits_full
    (nonzero : x ≠ 0#64) (full : significantBits x = 64) (stream : r.rest = xorCode x ++ tail) :
    readValueBits r prev = .error (.undefinedShift 64) := by
  have notShort : ¬ significantBits x ≤ 5 := by omega
  have noLeading : x.clz.toNat = 0 := by
    simp only [significantBits] at full
    omega
  simp only [xorCode, if_neg nonzero, if_neg notShort, cons_append, append_assoc] at stream
  rw [noLeading, full] at stream
  obtain ⟨bit1, rest1⟩ := readBit_cons stream
  obtain ⟨bit2, rest2⟩ := readBit_cons rest1
  obtain ⟨leading, rest3⟩ := readBits_field (n := 6) (by decide) rest2
  have width : ((r.readBit.2.readBit.2.readBits 6).2.readBits 6).1 = 0#64 := by
    rw [(readBits_spec _ 6).1, rest3, gather_field]
    decide
  simp only [readValueBits, bit1, bit2, leading, width, Bool.not_true, Bool.false_eq_true, if_false]
  rfl

theorem readValueBits_survives
    (h : XorSurvives x) (stream : r.rest = xorCode x ++ tail) :
    ∃ r', readValueBits r prev = .ok (prev ^^^ x, r') ∧ r'.rest = tail := by
  by_cases zero : x = 0#64
  · subst zero
    obtain ⟨bit, after⟩ := readBit_cons stream
    refine ⟨r.readBit.2, ?_, after⟩
    simp only [readValueBits, bit, Bool.not_false, if_true, BitVec.xor_zero]
  · rcases h with same | ⟨short, noTrailing⟩ | ⟨long, fits⟩
    · exact absurd same zero
    · obtain ⟨r', read, after⟩ := readValueBits_short prev zero short stream
      refine ⟨r', ?_, after⟩
      simpa only [noTrailing, BitVec.ushiftRight_zero] using read
    · exact readValueBits_long prev zero long fits stream

theorem readValueBits_lost {r' : BitReader} {prev v : BitVec 64}
    (h : ¬ XorSurvives x) (stream : r.rest = xorCode x ++ tail)
    (read : readValueBits r prev = .ok (v, r')) : v ≠ prev ^^^ x := by
  simp only [XorSurvives, not_or, not_and] at h
  obtain ⟨nonzero, shortLost, longLost⟩ := h
  by_cases short : significantBits x ≤ 5
  · obtain ⟨r'', actual, _⟩ := readValueBits_short prev nonzero short stream
    rw [actual] at read
    injection read with pair
    injection pair with value _
    subst value
    intro same
    exact shifted_ne nonzero (shortLost short) ((BitVec.xor_right_inj _).mp same)
  · have full : significantBits x = 64 := by
      have atMost : significantBits x ≤ 64 := by
        simp only [significantBits]
        omega
      omega
    rw [readValueBits_full prev nonzero full stream] at read
    cases read

/-- The loop started in step with the encoder returns the encoded points exactly when
    every field survives. Once a point comes back wrong the result is wrong, whatever the
    desynchronised rest decodes to. -/
theorem decompressLoop_iff (points : List Point) : ∀ (r : BitReader) (prev : Prev) (tail : List Bool),
    r.rest = pointsCode prev points ++ tail →
      (decompressLoop r prev points.length = .ok points ↔ Survives prev points) := by
  induction points with
  | nil =>
    intro r prev tail _
    simp only [length_nil, decompressLoop, Survives]
  | cons p points ih =>
    intro r prev tail stream
    simp only [pointsCode, append_assoc] at stream
    have delta : prev.delta + (p.timestamp - prev.timestamp - prev.delta) =
        p.timestamp - prev.timestamp := by
      rw [BitVec.add_comm, BitVec.sub_add_cancel]
    have timestamp : prev.timestamp + (p.timestamp - prev.timestamp) = p.timestamp := by
      rw [BitVec.add_comm, BitVec.sub_add_cancel]
    have value : prev.valueBits ^^^ (p.value ^^^ prev.valueBits) = p.value := by
      rw [BitVec.xor_comm p.value, ← BitVec.xor_assoc, BitVec.xor_self, BitVec.zero_xor]
    simp only [length_cons, Survives]
    constructor
    · intro result
      simp only [decompressLoop] at result
      split at result
      · cases result
      · rename_i valueBits r' read
        split at result
        · cases result
        · rename_i decoded more
          simp only [Except.ok.injEq, List.cons.injEq] at result
          obtain ⟨samePoint, sameRest⟩ := result
          subst sameRest
          have sameTimestamp : prev.timestamp + (prev.delta + (readDeltaOfDelta r).1) =
              p.timestamp := congrArg Point.timestamp samePoint
          have sameValue : valueBits = p.value := congrArg Point.value samePoint
          have deltaBack : (readDeltaOfDelta r).1 =
              p.timestamp - prev.timestamp - prev.delta := by
            rw [← sameTimestamp, BitVec.add_comm prev.timestamp, BitVec.add_sub_cancel,
              BitVec.add_comm prev.delta, BitVec.add_sub_cancel]
          have deltaSurvives : DeltaSurvives (p.timestamp - prev.timestamp - prev.delta) := by
            by_contra lost
            exact readDeltaOfDelta_lost lost stream deltaBack
          have afterDelta := (readDeltaOfDelta_survives deltaSurvives stream).2
          have xorSurvives : XorSurvives (p.value ^^^ prev.valueBits) := by
            by_contra lost
            exact readValueBits_lost lost afterDelta read (sameValue.trans value.symm)
          refine ⟨deltaSurvives, xorSurvives, ?_⟩
          obtain ⟨r'', read', afterValue⟩ :=
            readValueBits_survives prev.valueBits xorSurvives afterDelta
          rw [read'] at read
          injection read with pair
          injection pair with _ sameReader
          subst sameReader
          rw [deltaBack, delta, timestamp, sameValue] at more
          exact (ih r'' _ tail afterValue).mp more
    · rintro ⟨deltaSurvives, xorSurvives, survives⟩
      obtain ⟨deltaBack, afterDelta⟩ := readDeltaOfDelta_survives deltaSurvives stream
      obtain ⟨r', read, afterValue⟩ :=
        readValueBits_survives prev.valueBits xorSurvives afterDelta
      have more := (ih r' _ tail afterValue).mpr survives
      simp only [decompressLoop, deltaBack, delta, timestamp, read, value, more]

theorem deltaCode_length (d : BitVec 64) : (deltaCode d).length ≤ 68 := by
  simp only [deltaCode]
  repeat' split
  all_goals simp only [length_append, length_singleton, field_length]
  all_goals omega

theorem xorCode_length (x : BitVec 64) : (xorCode x).length ≤ 78 := by
  have atMost : significantBits x ≤ 64 := by
    simp only [significantBits]
    omega
  simp only [xorCode]
  repeat' split
  all_goals simp only [length_append, length_cons, length_nil, field_length]
  all_goals omega

theorem pointsCode_length (prev : Prev) (points : List Point) :
    (pointsCode prev points).length ≤ 146 * points.length := by
  induction points generalizing prev with
  | nil => exact Nat.zero_le _
  | cons p points ih =>
    have delta := deltaCode_length (p.timestamp - prev.timestamp - prev.delta)
    have value := xorCode_length (p.value ^^^ prev.valueBits)
    have more := ih ⟨p.timestamp, p.timestamp - prev.timestamp, p.value⟩
    simp only [pointsCode, length_append, length_cons]
    omega

theorem compress_stream {points : List Point} (first : Point) (rest : List Point)
    (sorted : sortByTimestamp points = first :: rest) :
    ∃ w : BitWriter, compress points = .ok w.buffer ∧
      w.bits = field (BitVec.ofNat 64 (rest.length + 1)) 32 ++ (field first.timestamp 64 ++
        (field first.value 64 ++ pointsCode ⟨first.timestamp, 0#64, first.value⟩ rest)) := by
  let header := ((empty.writeBits (BitVec.ofNat 64 (rest.length + 1)) 32).writeBits
    first.timestamp 64).writeBits first.value 64
  refine ⟨compressLoop header ⟨first.timestamp, 0#64, first.value⟩ rest, ?_, ?_⟩
  · simp only [compress, sorted, header]
  · simp only [header, compressLoop_bits, writeBits_bits, append_assoc]
    rfl

theorem sortByTimestamp_increasing {points : List Point}
    (increasing : points.Pairwise (fun a b => a.timestamp.toInt < b.timestamp.toInt)) :
    sortByTimestamp points = points :=
  List.Pairwise.insertionSort_eq (increasing.imp fun h => Int.le_of_lt h)

theorem goCompress_of_lt {points : List Point} {data : List (BitVec 8)} (nonempty : points ≠ [])
    (compressed : compress points = .ok data) (small : data.length < 2 ^ 31) : goCompress points = .ok data := by
  have same : Int.bmod data.length (2 ^ 32) = data.length := Int.bmod_eq_of_le (by omega) (by omega)
  have pos := length_pos_of_ne_nil nonempty
  simp only [goCompress, if_neg pos.ne', compressed, same]
  rw [if_neg (by omega), Int.toNat_natCast, take_length]

theorem decompress_writer (first : Point) (rest : List Point) (bounded : rest.length < 2 ^ 20)
    (w : BitWriter)
    (stream : w.bits = field (BitVec.ofNat 64 (rest.length + 1)) 32 ++ (field first.timestamp 64 ++
      (field first.value 64 ++ pointsCode ⟨first.timestamp, 0#64, first.value⟩ rest))) :
    ∃ r : BitReader, ∃ padding,
      r.rest = pointsCode ⟨first.timestamp, 0#64, first.value⟩ rest ++ padding ∧ decompress w.buffer =
        match decompressLoop r ⟨first.timestamp, 0#64, first.value⟩ rest.length with
        | .error fault => .error fault
        | .ok points => .ok (first :: points) := by
  obtain ⟨padding, whole⟩ := rest_of_writer w
  rw [stream] at whole
  simp only [append_assoc] at whole
  have countValue : (BitVec.ofNat 64 (rest.length + 1)).toNat = rest.length + 1 := by
    rw [BitVec.toNat_ofNat, Nat.mod_eq_of_lt (by omega)]
  obtain ⟨count, rest1⟩ := readBits_field (by omega) whole
  obtain ⟨timestamp, rest2⟩ := readBits_field first.timestamp.isLt rest1
  obtain ⟨value, rest3⟩ := readBits_field first.value.isLt rest2
  have ne : w.buffer.length ≠ 0 := by
    have written := congrArg List.length stream
    simp only [bits_length, length_append, field_length] at written
    rw [w.sized]
    omega
  refine ⟨_, padding, rest3, ?_⟩
  simp only [decompress, if_neg ne, count, timestamp, value, countValue]
  rewrite [Nat.add_sub_cancel]
  rfl

/-- On a non-empty, strictly increasing list of at most `2^20` points the Go round trip is
    the identity exactly when every delta-of-delta is zero or outside `-2047..2048` and every
    non-zero value xor has at most five significant bits and no trailing zero, or between
    six and sixty-three significant bits. -/
theorem goDecompress_goCompress_iff (points : List Point) (nonempty : points ≠ [])
    (bounded : points.length ≤ 2 ^ 20)
    (increasing : points.Pairwise (fun a b => a.timestamp.toInt < b.timestamp.toInt)) :
    (goCompress points).bind goDecompress = .ok points ↔ RoundTrips points := by
  cases points with
  | nil => exact absurd rfl nonempty
  | cons first rest =>
    have short : rest.length < 2 ^ 20 := by
      simp only [length_cons] at bounded
      omega
    obtain ⟨w, compressed, stream⟩ :=
      compress_stream first rest (sortByTimestamp_increasing increasing)
    obtain ⟨r, padding, inStep, decompressed⟩ := decompress_writer first rest short w stream
    have size : 0 < w.buffer.length ∧ w.buffer.length < 2 ^ 31 := by
      have code := pointsCode_length ⟨first.timestamp, 0#64, first.value⟩ rest
      have written := congrArg List.length stream
      simp only [BitWriter.bits_length, length_append, field_length] at written
      rw [w.sized]
      omega
    rw [goCompress_of_lt nonempty compressed size.2]
    change goDecompress w.buffer = _ ↔ Survives ⟨first.timestamp, 0#64, first.value⟩ rest
    rw [← decompressLoop_iff rest r _ padding inStep]
    simp only [goDecompress, if_neg size.1.ne', decompressed]
    cases loop : decompressLoop r ⟨first.timestamp, 0#64, first.value⟩ rest.length with
    | error fault => cases fault <;> simp only [reduceCtorEq]
    | ok decoded =>
      simp only [length_cons, Except.ok.injEq]
      constructor
      · intro same
        split at same
        · simp only [Except.ok.injEq, List.cons.injEq, true_and] at same
          exact same
        · cases same
      · intro same
        subst same
        rw [if_pos (by omega)]

/-- A list that survives: an unchanged pattern, a short xor and a long one. -/
theorem goDecompress_goCompress_jumps :
    (goCompress [⟨100#64, 5#64⟩, ⟨10100#64, 4#64⟩, ⟨20100#64, 4#64⟩, ⟨30100#64, 0x1230#64⟩]).bind
      goDecompress =
        .ok [⟨100#64, 5#64⟩, ⟨10100#64, 4#64⟩, ⟨20100#64, 4#64⟩, ⟨30100#64, 0x1230#64⟩] :=
  (goDecompress_goCompress_iff _ (by decide) (by decide) (by decide)).mpr (by decide +kernel)

/-- Two samples one second apart, with the same value, come back with equal timestamps. -/
theorem goDecompress_goCompress_second :
    List.Pairwise (fun a b => a.timestamp.toInt < b.timestamp.toInt)
        [(⟨0#64, 0#64⟩ : Point), ⟨1#64, 0#64⟩] ∧
      (goCompress [⟨0#64, 0#64⟩, ⟨1#64, 0#64⟩]).bind goDecompress =
        .ok [⟨0#64, 0#64⟩, ⟨0#64, 0#64⟩] ∧
      (goCompress [⟨0#64, 0#64⟩, ⟨1#64, 0#64⟩]).bind goDecompress ≠
        .ok [⟨0#64, 0#64⟩, ⟨1#64, 0#64⟩] := by
  decide +kernel

/-- Points in any order are compressed to a header of 20 bytes and at most 146 bits for every further
    point, and where the size fits in a `C.int` the Go wrapper returns just that. -/
theorem goCompress_bounded (points : List Point) (nonempty : points ≠ []) :
    ∃ data, compress points = .ok data ∧ 20 ≤ data.length ∧ data.length ≤ (146 * points.length + 21) / 8 ∧
      (data.length < 2 ^ 31 → goCompress points = .ok data) := by
  have count : (sortByTimestamp points).length = points.length := length_insertionSort ..
  have pos := length_pos_of_ne_nil nonempty
  cases sorted : sortByTimestamp points with
  | nil =>
    rw [sorted, length_nil] at count
    omega
  | cons first rest =>
    obtain ⟨w, compressed, stream⟩ := compress_stream first rest sorted
    have code := pointsCode_length ⟨first.timestamp, 0#64, first.value⟩ rest
    have written := congrArg List.length stream
    simp only [BitWriter.bits_length, length_append, field_length] at written
    rw [sorted, length_cons] at count
    have size := w.sized
    exact ⟨w.buffer, compressed, by omega, by omega, goCompress_of_lt nonempty compressed⟩

theorem goCompress_bounded_backwards :
    ∃ data, goCompress [⟨1#64, 0#64⟩, ⟨0#64, 0#64⟩] = .ok data ∧ 20 ≤ data.length ∧ data.length ≤ 39 := by
  obtain ⟨data, _, low, high, returned⟩ := goCompress_bounded [⟨1#64, 0#64⟩, ⟨0#64, 0#64⟩] (by decide)
  simp only [length_cons, length_nil] at high
  exact ⟨data, returned (by omega), low, high⟩

end Monitor.Gorilla
