import Mathlib

/-! # Numbers as bytes, most significant byte first

A number is written into a fixed count of bytes, and what does not fit is cut
off. Reading gives back the part that did fit, and bytes that were read are written
back as they were.
-/

namespace Monitor.BigEndian

open List

/-- The lowest `width` bytes of a number. -/
def putUint : Nat → Nat → List UInt8
  | 0, _ => []
  | width + 1, n => UInt8.ofNat (n / 256 ^ width) :: putUint width n

def uint (bytes : List UInt8) : Nat := bytes.foldl (fun n b => n * 256 + b.toNat) 0

variable (width n : Nat)

@[simp] theorem putUint_length : (putUint width n).length = width := by
  induction width with
  | zero => rfl
  | succ width ih => simp only [putUint, length_cons, ih]

theorem foldl_putUint (width n high : Nat) :
    (putUint width n).foldl (fun n b => n * 256 + b.toNat) high =
      high * 256 ^ width + n % 256 ^ width := by
  induction width generalizing high with
  | zero => simp only [putUint, foldl_nil, Nat.pow_zero, Nat.mul_one, Nat.mod_one, Nat.add_zero]
  | succ width ih =>
    have byte : (UInt8.ofNat (n / 256 ^ width)).toNat = n / 256 ^ width % 256 := by simp
    have split : n % 256 ^ (width + 1) = n % 256 ^ width + 256 ^ width * (n / 256 ^ width % 256) := by
      rw [Nat.pow_succ, Nat.mod_mul]
    rw [putUint, foldl_cons, ih, byte, split, Nat.pow_succ]
    ring

theorem uint_putUint : uint (putUint width n) = n % 256 ^ width := by
  rw [uint, foldl_putUint, Nat.zero_mul, Nat.zero_add]

variable (bytes : List UInt8)

theorem uint_concat (b : UInt8) :
    uint (bytes ++ [b]) = uint bytes * 256 + b.toNat := by
  rw [uint, foldl_append]
  rfl

theorem uint_lt : uint bytes < 256 ^ bytes.length := by
  induction bytes using List.reverseRecOn with
  | nil => exact Nat.one_pos
  | append_singleton bytes b ih =>
    have small := b.toNat_lt
    rw [uint_concat, length_append, length_singleton, Nat.pow_succ]
    omega

theorem uint_append (high low : List UInt8) : uint (high ++ low) =
    uint high * 256 ^ low.length + uint low := by
  induction low using List.reverseRecOn with
  | nil => simp [uint]
  | append_singleton low b ih =>
    rw [← append_assoc, uint_concat, ih, uint_concat, length_append, length_singleton, Nat.pow_succ]
    ring

theorem uint_cons (b : UInt8) (low : List UInt8) : uint (b :: low) =
    b.toNat * 256 ^ low.length + uint low := by
  have single : uint [b] = b.toNat := Nat.zero_add _
  rw [← singleton_append, uint_append, single]

theorem putUint_succ : putUint (width + 1) n = putUint width (n / 256) ++
    [UInt8.ofNat n] := by
  induction width with
  | zero => simp [putUint]
  | succ width ih =>
    have high : n / 256 / 256 ^ width = n / 256 ^ (width + 1) := by
      rw [Nat.div_div_eq_div_mul, Nat.pow_succ, Nat.mul_comm]
    rw [putUint, ih, putUint, high, cons_append]

theorem putUint_uint : putUint bytes.length (uint bytes) = bytes := by
  induction bytes using List.reverseRecOn with
  | nil => rfl
  | append_singleton bytes b ih =>
    have small := b.toNat_lt
    have high : (uint bytes * 256 + b.toNat) / 256 = uint bytes := by omega
    have low : UInt8.ofNat (uint bytes * 256 + b.toNat) = b := by
      rw [← UInt8.toNat_inj, UInt8.toNat_ofNat']
      omega
    rw [uint_concat, length_append, length_singleton, putUint_succ, high, low, ih]

theorem uint_injective {bytes bytes' : List UInt8} (length : bytes.length = bytes'.length)
    (same : uint bytes = uint bytes') : bytes = bytes' := by
  rw [← putUint_uint bytes, ← putUint_uint bytes', length, same]

end Monitor.BigEndian
