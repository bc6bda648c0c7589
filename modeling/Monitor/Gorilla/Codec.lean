import Monitor.Gorilla.Bits

/-! # The Gorilla compressor and its Go wrapper

`GorillaCompressor` of `gorilla.cpp` and the cgo wrapper of `gorilla_go.go`.
Timestamps and value patterns are 64-bit words; timestamps are compared as signed
words and all their arithmetic wraps. A `double` is its bit pattern, since the
code only copies it and xors patterns. Memory allocation is taken to succeed.
-/

namespace Monitor.Gorilla

/-- `gorilla_point_t`, and the Go `TimeSeriesPoint` it is copied from and to. -/
structure Point where
  timestamp : BitVec 64
  value : BitVec 64
  deriving DecidableEq, Repr

/-- How a call can fail to return a result. -/
inductive Fault where
  /-- A non-zero `gorilla_result_t.status`. -/
  | status (code : Nat)
  /-- A Go error value. -/
  | error (message : String)
  /-- A Go runtime panic. -/
  | panic (reason : String)
  /-- A C++ shift of a 64-bit word by a count outside `0..63`, which is undefined. -/
  | undefinedShift (count : Int)
  deriving DecidableEq, Repr

/-- What both loops carry from one point to the next. -/
structure Prev where
  timestamp : BitVec 64
  delta : BitVec 64
  valueBits : BitVec 64
  deriving DecidableEq, Repr

/-- The delta-of-delta branch of `compress`. -/
def writeDeltaOfDelta (w : BitWriter) (deltaOfDelta : BitVec 64) : BitWriter :=
  if deltaOfDelta = 0#64 then
    w.writeBit false
  else if -63 ≤ deltaOfDelta.toInt ∧ deltaOfDelta.toInt ≤ 64 then
    (w.writeBits 0b10#64 2).writeBits (deltaOfDelta + 63#64) 7
  else if -255 ≤ deltaOfDelta.toInt ∧ deltaOfDelta.toInt ≤ 256 then
    (w.writeBits 0b110#64 3).writeBits (deltaOfDelta + 255#64) 9
  else if -2047 ≤ deltaOfDelta.toInt ∧ deltaOfDelta.toInt ≤ 2048 then
    (w.writeBits 0b1110#64 4).writeBits (deltaOfDelta + 2047#64) 12
  else
    (w.writeBits 0b1111#64 4).writeBits deltaOfDelta 64

/-- The bits between the leading and the trailing zeros of a word. -/
def significantBits (x : BitVec 64) : Nat := 64 - x.clz.toNat - x.ctz.toNat

/-- The value branch of `compress`. -/
def writeXor (w : BitWriter) (xorResult : BitVec 64) : BitWriter :=
  if xorResult = 0#64 then
    w.writeBit false
  else
    let w := w.writeBit true
    let leadingZeros := xorResult.clz.toNat
    let trailingZeros := xorResult.ctz.toNat
    let significant := significantBits xorResult
    if significant ≤ 5 then
      let w := (w.writeBit false).writeBits (BitVec.ofNat 64 (significant - 1)) 3
      w.writeBits (xorResult >>> trailingZeros) significant
    else
      let w := (w.writeBit true).writeBits (BitVec.ofNat 64 leadingZeros) 6
      let w := w.writeBits (BitVec.ofNat 64 significant) 6
      w.writeBits (xorResult >>> trailingZeros) significant

/-- The loop of `compress` over the points behind the first. -/
def compressLoop (w : BitWriter) (prev : Prev) : List Point → BitWriter
  | [] => w
  | p :: points =>
    let delta := p.timestamp - prev.timestamp
    let w := writeDeltaOfDelta w (delta - prev.delta)
    let w := writeXor w (p.value ^^^ prev.valueBits)
    compressLoop w ⟨p.timestamp, delta, p.value⟩ points

/-- `std::sort` by timestamp. The library sort is not stable, which only shows on
    points with equal timestamps. -/
def sortByTimestamp (points : List Point) : List Point :=
  points.insertionSort (fun a b => a.timestamp.toInt ≤ b.timestamp.toInt)

def compress (points : List Point) : Except Fault (List (BitVec 8)) :=
  match sortByTimestamp points with
  | [] => .error (.status 1)
  | first :: rest =>
    let w := BitWriter.empty.writeBits (BitVec.ofNat 64 (rest.length + 1)) 32
    let w := (w.writeBits first.timestamp 64).writeBits first.value 64
    .ok (compressLoop w ⟨first.timestamp, 0#64, first.value⟩ rest).buffer

/-- The delta-of-delta branch of `decompress`. -/
def readDeltaOfDelta (r : BitReader) : BitVec 64 × BitReader :=
  let (bit, r) := r.readBit
  if !bit then
    (0#64, r)
  else
    let (bit, r) := r.readBit
    if !bit then
      let (v, r) := r.readBits 7
      (v - 63#64, r)
    else
      let (bit, r) := r.readBit
      if !bit then
        let (v, r) := r.readBits 9
        (v - 255#64, r)
      else
        let (bit, r) := r.readBit
        if !bit then
          let (v, r) := r.readBits 12
          (v - 2047#64, r)
        else
          r.readBits 64

/-- `x << count` on a 64-bit word. -/
def shiftLeft (x : BitVec 64) (count : Int) : Except Fault (BitVec 64) :=
  if 0 ≤ count ∧ count < 64 then .ok (x <<< count.toNat) else .error (.undefinedShift count)

/-- The value branch of `decompress`. -/
def readValueBits (r : BitReader) (prevValueBits : BitVec 64) :
    Except Fault (BitVec 64 × BitReader) :=
  let (bit, r) := r.readBit
  if !bit then
    .ok (prevValueBits, r)
  else
    let (bit, r) := r.readBit
    if !bit then
      let (count, r) := r.readBits 3
      let (xorBits, r) := r.readBits (count.toNat + 1)
      .ok (prevValueBits ^^^ xorBits, r)
    else
      let (leadingZeros, r) := r.readBits 6
      let (significant, r) := r.readBits 6
      let (xorBits, r) := r.readBits significant.toNat
      match shiftLeft xorBits (64 - (leadingZeros.toNat : Int) - significant.toNat) with
      | .ok shifted => .ok (prevValueBits ^^^ shifted, r)
      | .error fault => .error fault

/-- The loop of `decompress`. `hasMore` counts up to the announced number of points,
    so the body runs once for each point behind the first. -/
def decompressLoop (r : BitReader) (prev : Prev) : Nat → Except Fault (List Point)
  | 0 => .ok []
  | n + 1 =>
    let (deltaOfDelta, r) := readDeltaOfDelta r
    let delta := prev.delta + deltaOfDelta
    let timestamp := prev.timestamp + delta
    match readValueBits r prev.valueBits with
    | .error fault => .error fault
    | .ok (valueBits, r) =>
      match decompressLoop r ⟨timestamp, delta, valueBits⟩ n with
      | .error fault => .error fault
      | .ok points => .ok (⟨timestamp, valueBits⟩ :: points)

def decompress (data : List (BitVec 8)) : Except Fault (List Point) :=
  if data.length = 0 then
    .error (.status 1)
  else
    let (pointCount, r) := BitReader.readBits ⟨data, 0⟩ 32
    let (timestamp, r) := r.readBits 64
    let (valueBits, r) := r.readBits 64
    match decompressLoop r ⟨timestamp, 0#64, valueBits⟩ (pointCount.toNat - 1) with
    | .error fault => .error fault
    | .ok points => .ok (⟨timestamp, valueBits⟩ :: points)

/-- The Go `Compress`. `C.GoBytes` takes the size as a `C.int`, which keeps its low 32 bits. -/
def goCompress (points : List Point) : Except Fault (List (BitVec 8)) :=
  if points.length = 0 then
    .error (.error "empty data points")
  else
    match compress points with
    | .error _ => .error (.error "compression failed")
    | .ok data =>
      let size := Int.bmod data.length (2 ^ 32)
      if size < 0 then .error (.panic "gobytes: length out of range")
      else .ok (data.take size.toNat)

/-- The Go `Decompress`. The result is sliced out of a `[1 << 20]gorilla_point_t`. -/
def goDecompress (data : List (BitVec 8)) : Except Fault (List Point) :=
  if data.length = 0 then
    .error (.error "empty compressed data")
  else
    match decompress data with
    | .error (.undefinedShift count) => .error (.undefinedShift count)
    | .error _ => .error (.error "decompression failed")
    | .ok points =>
      if points.length ≤ 2 ^ 20 then .ok points
      else .error (.panic "slice bounds out of range")

end Monitor.Gorilla
