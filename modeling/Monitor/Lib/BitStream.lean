import Mathlib

/-! # Bit streams stored in bytes, lowest bit first

A byte buffer is read as the stream of its bits: bit `i` of the stream is bit
`i % 8` of byte `i / 8`. Fields of a fixed width are laid out lowest bit first.
Nothing here fixes an encoder or a decoder; the two sides of a codec meet in
`gather_field`.
-/

namespace Monitor.BitStream

open List

/-- Bit `i` of a buffer. Positions behind the last byte read as zero. -/
def bitAt (bytes : List (BitVec 8)) (i : Nat) : Bool :=
  (bytes[i / 8]?.getD 0#8).getLsbD (i % 8)

def unpack (bytes : List (BitVec 8)) : List Bool :=
  (List.range (8 * bytes.length)).map (bitAt bytes)

/-- The `n` lowest bits of a word, lowest first. -/
def field {w : Nat} (v : BitVec w) (n : Nat) : List Bool :=
  (List.range n).map v.getLsbD

/-- The word whose `n` lowest bits are the head of a stream. -/
def gather {w : Nat} (bits : List Bool) : Nat → BitVec w
  | 0 => 0#w
  | n + 1 => if bits.getD n false then gather bits n ||| (1#w <<< n) else gather bits n

theorem bitAt_beyond {bytes : List (BitVec 8)} {i : Nat} (h : 8 * bytes.length ≤ i) :
    bitAt bytes i = false := by
  have outside : bytes.length ≤ i / 8 := by omega
  simp [bitAt, getElem?_eq_none outside]

variable (bytes : List (BitVec 8))

@[simp] theorem unpack_length : (unpack bytes).length = 8 * bytes.length := by
  simp [unpack]

theorem unpack_getD (i : Nat) :
    (unpack bytes).getD i false = bitAt bytes i := by
  by_cases lt : i < 8 * bytes.length
  · simp [unpack, getD_eq_getElem?_getD, getElem?_range lt]
  · rw [bitAt_beyond (by omega), getD_eq_default]
    simp only [unpack_length]
    omega

variable {w : Nat} (v : BitVec w)

@[simp] theorem field_length (n : Nat) : (field v n).length = n := by
  simp [field]

@[simp] theorem field_zero : field v 0 = [] := by
  simp [field]

theorem field_succ (n : Nat) : field v (n + 1) = field v n ++ [v.getLsbD n] := by
  simp [field, range_succ]

theorem field_getD {n i : Nat} (h : i < n) (rest : List Bool) :
    (field v n ++ rest).getD i false = v.getLsbD i := by
  rw [getD_append _ _ _ _ (by simpa using h)]
  simp [field, getD_eq_getElem?_getD, getElem?_range h]

variable (bits : List Bool)

theorem getD_drop (k i : Nat) :
    (bits.drop k).getD i false = bits.getD (k + i) false := by
  simp [getD_eq_getElem?_getD]

theorem getLsbD_gather (n i : Nat) : (gather bits n : BitVec w).getLsbD i =
      (decide (i < n) && decide (i < w) && bits.getD i false) := by
  induction n with
  | zero => simp [gather]
  | succ n ih =>
    have single : (1#w <<< n).getLsbD i = (decide (i < w) && decide (i = n)) := by
      rw [BitVec.getLsbD_shiftLeft, BitVec.getLsbD_one]
      by_cases h : i < w <;> by_cases h' : i = n <;> simp [h, h'] <;> omega
    simp only [gather]
    rcases Nat.lt_trichotomy i n with below | rfl | above
    · have lt : i < n + 1 := by omega
      split <;> simp [ih, single, below, lt, below.ne]
    · split
      · rename_i set
        rw [BitVec.getLsbD_or, ih, single, set]
        simp
      · rename_i clear
        rw [ih, Bool.eq_false_of_not_eq_true clear]
        simp
    · have outside : ¬ i < n + 1 := by omega
      split <;> simp [ih, single, outside, above.ne', above.not_gt]

theorem gather_lt (n : Nat) : (gather bits n : BitVec w).toNat < 2 ^ n := by
  apply Nat.lt_pow_two_of_testBit
  intro i above
  rw [BitVec.testBit_toNat, getLsbD_gather]
  simp [Nat.not_lt.mpr above]

theorem gather_field (n : Nat) (rest : List Bool) :
    (gather (field v n ++ rest) n : BitVec w) = (v.setWidth n).setWidth w := by
  apply BitVec.eq_of_getLsbD_eq
  intro i lt
  rw [getLsbD_gather]
  by_cases h : i < n
  · rw [field_getD v h]
    simp [h, lt]
  · simp [h]

theorem gather_field_of_lt {v : BitVec w} {n : Nat} (fits : v.toNat < 2 ^ n)
    (rest : List Bool) : (gather (field v n ++ rest) n : BitVec w) = v := by
  rw [gather_field]
  apply BitVec.eq_of_toNat_eq
  simp only [BitVec.toNat_setWidth]
  rw [Nat.mod_eq_of_lt fits, Nat.mod_eq_of_lt v.isLt]

end Monitor.BitStream
