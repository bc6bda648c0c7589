import Monitor.Lib.BigEndian
import Monitor.Lib.GoText

/-! # Internet addresses and blocks of them

The parts of the packages `net` and `net/netip` that read an address or a block and that ask whether an
address is in a block. An address is a slice of four or sixteen bytes; a block is what the bytes and a
mask of leading ones leave open.

`Contains` treats an address of sixteen bytes that begins with `::ffff` as one of four bytes, so such
addresses are never in a block whose own address is longer.
-/

namespace Monitor.NetIP

open GoText BigEndian List Option

/-- `IP`; the nil slice is empty. -/
abbrev IP := List UInt8

def v4InV6Prefix : IP := [0, 0, 0, 0, 0, 0, 0, 0, 0, 0, 0xff, 0xff]

/-- `netip.Addr` without a zone. -/
structure Addr where
  bytes : IP
  length_bytes : bytes.length = 4 ∨ bytes.length = 16
  deriving DecidableEq

namespace Addr

def bitLen (a : Addr) : Nat := 8 * a.bytes.length

def as16 (a : Addr) : IP := if a.bytes.length = 4 then v4InV6Prefix ++ a.bytes else a.bytes

end Addr

/-- The four decimal fields; a dot needs digits on both sides, and no field has a leading zero. -/
def parseIPv4Fields : GoString → List UInt8 → Nat → Nat → Option (List UInt8)
  | [], fields, val, _ => if fields.length < 3 then none else some (fields ++ [UInt8.ofNat val])
  | c :: rest, fields, val, digLen =>
    if isDigit c then
      if digLen = 1 ∧ val = 0 then none
      else if val * 10 + (c.toNat - 48) > 255 then none
      else parseIPv4Fields rest fields (val * 10 + (c.toNat - 48)) (digLen + 1)
    else if c = 46 then
      if digLen = 0 ∨ rest = [] then none
      else if fields.length = 3 then none
      else parseIPv4Fields rest (fields ++ [UInt8.ofNat val]) 0 0
    else none

def isHexDigit (c : UInt8) : Bool := isDigit c || decide (97 ≤ c ∧ c ≤ 102) || decide (65 ≤ c ∧ c ≤ 70)

def hexValue (c : UInt8) : Nat :=
  if isDigit c then c.toNat - 48 else if 97 ≤ c then c.toNat - 87 else c.toNat - 55

/-- The loop of `parseIPv6`, with the count of groups that still have room: what is left of the text, the
    bytes so far and where among them `::` stood. -/
def parseIPv6Groups : Nat → GoString → List UInt8 → Option Nat → Option (GoString × List UInt8 × Option Nat)
  | 0, s, ip, ellipsis => some (s, ip, ellipsis)
  | room + 1, s, ip, ellipsis =>
    let digits := s.takeWhile isHexDigit
    let ip' := ip ++ putUint 2 (digits.foldl (fun acc c => acc * 16 + hexValue c) 0)
    if digits.length > 4 then none
    else if digits = [] then none
    else
      match s.drop digits.length with
      | [] => some ([], ip', ellipsis)
      | c :: rest =>
        if c = 46 then
          -- The rest is an address of four bytes at the end.
          if ellipsis = none ∧ ip.length ≠ 12 then none
          else if ip.length + 4 > 16 then none
          else (parseIPv4Fields s [] 0 0).map fun fields => ([], ip ++ fields, ellipsis)
        else if c ≠ 58 then none
        else
          match rest with
          | [] => none
          | d :: rest' =>
            if d = 58 then
              if ellipsis.isSome then none
              else if rest' = [] then some ([], ip', some ip'.length)
              else parseIPv6Groups room rest' ip' (some ip'.length)
            else parseIPv6Groups room rest ip' ellipsis

variable {s : GoString} {n ones : Nat} {ip : IP}

theorem length_parseIPv4Fields {fields bytes : List UInt8} {val digLen : Nat}
    (few : fields.length ≤ 3) (parsed : parseIPv4Fields s fields val digLen = some bytes) :
    bytes.length = 4 := by
  induction s generalizing fields val digLen with
  | nil =>
    simp only [parseIPv4Fields, ite_none_left_eq_some, some.injEq] at parsed
    rw [← parsed.2, length_append, length_singleton]
    omega
  | cons c rest ih =>
    simp only [parseIPv4Fields] at parsed
    split at parsed
    · simp only [ite_none_left_eq_some] at parsed
      exact ih few parsed.2.2
    · simp only [ite_none_left_eq_some, ite_none_right_eq_some] at parsed
      apply ih _ parsed.2.2.2
      rw [length_append, length_singleton]
      omega

theorem length_parseIPv6Groups {room : Nat} {rest : GoString} {ip bytes : List UInt8}
    {ellipsis ellipsis' : Option Nat}
    (fits : ip.length + 2 * room ≤ 16) (parsed : parseIPv6Groups room s ip ellipsis = some
    (rest, bytes, ellipsis')) : bytes.length ≤ 16 := by
  induction room generalizing s ip ellipsis with
  | zero =>
    cases parsed
    exact fits
  | succ room ih =>
    have grown : ∀ n, (ip ++ putUint 2 n).length + 2 * room ≤ 16 := by
      intro n
      rw [length_append, putUint_length]
      omega
    have grown' : ∀ n, (ip ++ putUint 2 n).length ≤ 16 := fun n => Nat.le_trans (Nat.le_add_right _ _)
      (grown n)
    simp only [parseIPv6Groups, ite_none_left_eq_some] at parsed
    replace parsed := parsed.2.2
    split at parsed
    · cases parsed
      exact grown' _
    · split at parsed
      · simp only [ite_none_left_eq_some, map_eq_some_iff] at parsed
        obtain ⟨-, short, fields, four, same⟩ := parsed
        cases same
        have length := length_parseIPv4Fields (by simp) four
        rw [length_append, length]
        omega
      · replace parsed := (ite_none_left_eq_some.mp parsed).2
        split at parsed
        · cases parsed
        · split at parsed
          · replace parsed := (ite_none_left_eq_some.mp parsed).2
            split at parsed
            · cases parsed
              exact grown' _
            · exact ih (grown _) parsed
          · exact ih (grown _) parsed

def parseIPv4 (s : GoString) : Option (Addr × GoString) :=
  match parsed : parseIPv4Fields s [] 0 0 with
  | none => none
  | some bytes => some (⟨bytes, .inl (length_parseIPv4Fields (by simp) parsed)⟩, [])

/-- The zeros that `::` stands for. -/
def expandEllipsis (ip : List UInt8) (ellipsis : Nat) : List UInt8 :=
  ip.take ellipsis ++ List.replicate (16 - ip.length) 0 ++ ip.drop ellipsis

theorem length_expandEllipsis {ip : List UInt8} (short : ip.length ≤ 16) (ellipsis : Nat) :
    (expandEllipsis ip ellipsis).length = 16 := by
  simp only [expandEllipsis, length_append, length_take, length_replicate, length_drop]
  omega

/-- The end of `parseIPv6`. -/
def finishIPv6 (zone : GoString) (ip : List UInt8) (short : ip.length ≤ 16) : Option Nat → Option
    (Addr × GoString)
  | none => if full : ip.length = 16 then some (⟨ip, .inr full⟩, zone) else none
  | some ellipsis =>
    if ip.length = 16 then none
    else some (⟨expandEllipsis ip ellipsis, .inr (length_expandEllipsis short ellipsis)⟩, zone)

/-- What `parseIPv6` does once the zone is cut off. -/
def parseIPv6Body (s zone : GoString) : Option (Addr × GoString) :=
  let leading := s.take 2 = [58, 58]
  let s' := if leading then s.drop 2 else s
  let ellipsis := if leading then some 0 else none
  if leading ∧ s' = [] then finishIPv6 zone [] (Nat.zero_le 16) (some 0)
  else
    match parsed : parseIPv6Groups 8 s' [] ellipsis with
    | none => none
    | some (rest, ip, ellipsis') =>
      if rest ≠ [] then none
      else finishIPv6 zone ip (length_parseIPv6Groups (Nat.le_refl 16) parsed) ellipsis'

def parseIPv6 (s : GoString) : Option (Addr × GoString) :=
  match s.dropWhile (· ≠ 37) with
  | [] => parseIPv6Body s []
  | _ :: zone => if zone = [] then none else parseIPv6Body (s.takeWhile (· ≠ 37)) zone

/-- `netip.ParseAddr`: an address and its zone. -/
def parseAddr (s : GoString) : Option (Addr × GoString) :=
  match s.find? fun c => c = 46 ∨ c = 58 ∨ c = 37 with
  | none => none
  | some c => if c = 46 then parseIPv4 s else if c = 58 then parseIPv6 s else none

/-- `net.ParseIP`. -/
def parseIP (s : GoString) : Option IP :=
  match parseAddr s with
  | none => none
  | some (a, zone) => if zone ≠ [] then none else some a.as16

/-- The loop of `dtoi`: a number and how many digits it has. -/
def dtoiLoop : GoString → Nat → Nat → Option (Nat × Nat)
  | [], n, i => some (n, i)
  | c :: rest, n, i =>
    if isDigit c then
      if n * 10 + (c.toNat - 48) ≥ 0xFFFFFF then none else dtoiLoop rest (n * 10 + (c.toNat - 48)) (i + 1)
    else some (n, i)

def dtoi (s : GoString) : Option (Nat × Nat) :=
  match dtoiLoop s 0 0 with
  | none => none
  | some (n, i) => if i = 0 then none else some (n, i)

/-- `CIDRMask` for a mask of so many bytes. -/
def cidrMask : Nat → Nat → List UInt8
  | 0, _ => []
  | l + 1, n => if n ≥ 8 then 0xff :: cidrMask l
      (n - 8) else ~~~((0xff : UInt8) >>> UInt8.ofNat n) :: cidrMask l 0

structure IPNet where
  ip : IP
  mask : List UInt8
  deriving DecidableEq

/-- `IP.Mask`. -/
def mask (ip m : List UInt8) : IP :=
  let m' := if m.length = 16 ∧ ip.length = 4 ∧ (m.take 12).all (· = 0xff) then m.drop 12 else m
  let ip' := if m'.length = 4 ∧ ip.length = 16 ∧ ip.take 12 = v4InV6Prefix then ip.drop 12 else ip
  if ip'.length ≠ m'.length then [] else List.zipWith (· &&& ·) ip' m'

/-- The address and the count of leading ones that `ParseCIDR` reads. -/
def parsePrefix (s : GoString) : Option (Addr × Nat) :=
  match s.dropWhile (· ≠ 47) with
  | [] => none
  | _ :: digits =>
    match parseAddr (s.takeWhile (· ≠ 47)) with
    | none => none
    | some (a, zone) =>
      if zone ≠ [] then none
      else
        match dtoi digits with
        | none => none
        | some (n, i) => if i ≠ digits.length ∨ n > a.bitLen then none else some (a, n)

def parseCIDR (s : GoString) : Option (IP × IPNet) :=
  (parsePrefix s).map fun (a, n) =>
    let m := cidrMask a.bytes.length n
    (a.as16, ⟨mask a.as16 m, m⟩)

/-- `To4`. -/
def to4 (ip : IP) : Option IP :=
  if ip.length = 4 then some ip
  else if ip.length = 16 ∧ ip.take 12 = v4InV6Prefix then some (ip.drop 12)
  else none

def networkNumberAndMask (n : IPNet) : IP × List UInt8 :=
  let ip := (to4 n.ip).getD n.ip
  if ip.length ≠ 4 ∧ ip.length ≠ 16 then ([], [])
  else if n.mask.length = 4 then if ip.length ≠ 4 then ([], []) else (ip, n.mask)
  else if n.mask.length = 16 then if ip.length = 4 then (ip, n.mask.drop 12) else (ip, n.mask)
  else ([], [])

/-- `IPNet.Contains`. -/
def contains (n : IPNet) (ip : IP) : Bool :=
  let (nn, m) := networkNumberAndMask n
  let ip' := (to4 ip).getD ip
  if ip'.length ≠ nn.length then false
  else decide (List.zipWith (· &&& ·) nn m = List.zipWith (· &&& ·) ip' m)

/-- The addresses whose first `ones` bits are those of the given one. -/
def InBlock (ip : IP) (ones : Nat) (a : IP) : Prop :=
  a.length = ip.length ∧ uint a / 2 ^ (8 * ip.length - ones) = uint ip / 2 ^ (8 * ip.length - ones)

/-- The byte of a mask that has `n` leading ones. -/
def highBits (n : Nat) : UInt8 := ~~~((0xff : UInt8) >>> UInt8.ofNat n)

theorem ofNat_and_highBits : ∀ n < 8, ∀ b < 256,
    (UInt8.ofNat b &&& highBits n).toNat = b / 2 ^ (8 - n) * 2 ^ (8 - n) := by
  decide +kernel

variable (b : UInt8)

theorem and_highBits (few : n < 8) :
    (b &&& highBits n).toNat = b.toNat / 2 ^ (8 - n) * 2 ^ (8 - n) := by
  have checked := ofNat_and_highBits n few b.toNat b.toNat_lt
  rw [UInt8.ofNat_toNat] at checked
  exact checked

theorem and_ones : b &&& 0xff = b := UInt8.and_neg_one

@[simp] theorem cidrMask_length (l n : Nat) : (cidrMask l n).length = l := by
  induction l generalizing n with
  | zero => rfl
  | succ l ih =>
    unfold cidrMask
    split <;> rw [length_cons, ih]

def masked (bytes : List UInt8) (n : Nat) : List UInt8 := List.zipWith (· &&& ·) bytes
    (cidrMask bytes.length n)

theorem masked_cons_ones (rest : List UInt8) (byte : 8 ≤ n) :
    masked (b :: rest) n = b :: masked rest (n - 8) := by
  unfold masked
  rw [length_cons, cidrMask, if_pos byte, zipWith_cons_cons, and_ones]

theorem masked_cons_highBits (rest : List UInt8) (few : n < 8) :
    masked (b :: rest) n = (b &&& highBits n) :: masked rest 0 := by
  unfold masked
  rw [length_cons, cidrMask, if_neg (Nat.not_le.mpr few), zipWith_cons_cons]
  rfl

variable (bytes : List UInt8)

@[simp] theorem masked_length (n : Nat) : (masked bytes n).length = bytes.length := by
  rw [masked, length_zipWith, cidrMask_length, Nat.min_self]

theorem uint_masked_zero : uint (masked bytes 0) = 0 := by
  induction bytes with
  | nil => rfl
  | cons b rest ih =>
    have none : (b &&& highBits 0).toNat = 0 := by
      rw [and_highBits b (by decide), Nat.div_eq_of_lt b.toNat_lt, Nat.zero_mul]
    rw [masked_cons_highBits b rest (by decide), uint_cons, ih, none, Nat.zero_mul]

theorem uint_masked (fits : n ≤ 8 * bytes.length) :
    uint (masked bytes n) = uint bytes / 2 ^ (8 * bytes.length - n) * 2 ^ (8 * bytes.length - n) := by
  induction bytes generalizing n with
  | nil => simp [masked, uint]
  | cons b rest ih =>
    have bits : 256 ^ rest.length = 2 ^ (8 * rest.length) := Nat.pow_mul 2 8 rest.length |>.symm
    have small : uint rest < 2 ^ (8 * rest.length) := bits ▸ uint_lt rest
    rw [length_cons] at fits ⊢
    by_cases byte : 8 ≤ n
    · have width : 8 * (rest.length + 1) - n = 8 * rest.length - (n - 8) := by omega
      have whole : 2 ^ (8 * rest.length) = 2 ^ (n - 8) * 2 ^ (8 * rest.length - (n - 8)) := by
        rw [← Nat.pow_add]
        congr 1
        omega
      rw [masked_cons_ones b rest byte, uint_cons, masked_length, uint_cons, ih (by omega), width, bits,
        whole]
      have shifted : b.toNat * (2 ^ (n - 8) * 2 ^ (8 * rest.length - (n - 8))) + uint rest =
          uint rest + b.toNat * 2 ^ (n - 8) * 2 ^ (8 * rest.length - (n - 8)) := by ring
      rw [shifted, Nat.add_mul_div_right _ _ (Nat.two_pow_pos _)]
      ring
    · have few : n < 8 := Nat.not_le.mp byte
      have width : 2 ^ (8 * (rest.length + 1) - n) = 2 ^ (8 * rest.length) * 2 ^ (8 - n) := by
        rw [← Nat.pow_add]
        congr 1
        omega
      have high : (b.toNat * 2 ^ (8 * rest.length) + uint rest) / 2 ^ (8 * rest.length) = b.toNat := by
        rw [Nat.mul_comm, Nat.mul_add_div (Nat.two_pow_pos _), Nat.div_eq_of_lt small, Nat.add_zero]
      rw [masked_cons_highBits b rest few, uint_cons, masked_length, uint_masked_zero, uint_cons, bits,
        width, ← Nat.div_div_eq_div_mul, high, and_highBits b few]
      ring

theorem masked_eq_iff {bytes bytes' : List UInt8} (length : bytes.length = bytes'.length)
    (fits : n ≤ 8 * bytes'.length) : masked bytes n = masked bytes' n ↔
      uint bytes / 2 ^ (8 * bytes'.length - n) = uint bytes' / 2 ^ (8 * bytes'.length - n) := by
  have number := uint_masked bytes (length ▸ fits)
  have number' := uint_masked bytes' fits
  rw [length] at number
  constructor
  · intro same
    rw [same, number'] at number
    exact Nat.eq_of_mul_eq_mul_right (Nat.two_pow_pos _) number.symm
  · intro same
    apply uint_injective
    · rw [masked_length, masked_length, length]
    · rw [number, number', same]

theorem inBlock_iff (fits : ones ≤ 8 * ip.length) (a : IP) :
    InBlock ip ones a ↔ a.length = ip.length ∧ masked a ones = masked ip ones :=
  and_congr_right fun length => (masked_eq_iff length fits).symm

theorem inBlock_zero {a : IP} (length : a.length = ip.length) : InBlock ip 0 a := by
  have bits : 256 ^ ip.length = 2 ^ (8 * ip.length - 0) := (Nat.pow_mul 2 8 ip.length).symm
  have small : uint a < 2 ^ (8 * ip.length - 0) := bits ▸ length ▸ uint_lt a
  have small' : uint ip < 2 ^ (8 * ip.length - 0) := bits ▸ uint_lt ip
  exact ⟨length, (Nat.div_eq_of_lt small).trans (Nat.div_eq_of_lt small').symm⟩

theorem masked_inBlock (ip : IP) (fits : ones ≤ 8 * ip.length) : InBlock ip ones (masked ip ones) := by
  refine ⟨masked_length ip ones, ?_⟩
  rw [uint_masked ip fits, Nat.mul_div_cancel _ (Nat.two_pow_pos _)]

theorem masked_masked (ip : IP) (fits : ones ≤ 8 * ip.length) :
    masked (masked ip ones) ones = masked ip ones :=
  ((inBlock_iff fits _).mp (masked_inBlock ip fits)).2

theorem masked_append (high low : List UInt8) (long : 8 * high.length ≤ n) :
    masked (high ++ low) n = high ++ masked low (n - 8 * high.length) := by
  induction high generalizing n with
  | nil => rfl
  | cons b high ih =>
    rw [length_cons] at long
    have left : n - 8 - 8 * high.length = n - 8 * (b :: high).length := by
      rw [length_cons]
      omega
    rw [cons_append, masked_cons_ones _ _ (by omega), ih (by omega), left, cons_append]

theorem cidrMask_drop {k l : Nat} (long : 8 * k ≤ n) : (cidrMask (k + l) n).drop k = cidrMask l
    (n - 8 * k) := by
  induction k generalizing n with
  | zero => rw [Nat.zero_add, Nat.mul_zero, Nat.sub_zero, drop_zero]
  | succ k ih =>
    have left : n - 8 - 8 * k = n - 8 * (k + 1) := by omega
    rw [Nat.succ_add, cidrMask, if_pos (by omega), drop_succ_cons, ih (by omega), left]

/-- The block that `ParseCIDR` makes. -/
def network (a : Addr) (ones : Nat) : IPNet := ⟨masked a.bytes ones, cidrMask a.bytes.length ones⟩

theorem mask_as16 (a : Addr) (ones : Nat) : mask a.as16 (cidrMask a.bytes.length ones) =
    masked a.bytes ones := by
  cases a.length_bytes with
  | inl four =>
    have long : (v4InV6Prefix ++ a.bytes).length = 16 := by
      rw [length_append, four]
      rfl
    have front : (v4InV6Prefix ++ a.bytes).take 12 = v4InV6Prefix := take_left' rfl
    have back : (v4InV6Prefix ++ a.bytes).drop 12 = a.bytes := drop_left' rfl
    simp [mask, Addr.as16, four, long, front, back, masked]
  | inr sixteen =>
    simp [mask, Addr.as16, sixteen, masked]

theorem parseCIDR_of_prefix {a : Addr} (parsed : parsePrefix s = some (a, ones)) :
    parseCIDR s = some (a.as16, network a ones) := by
  simp only [parseCIDR, parsed, Option.map_some, mask_as16, network]

theorem parsePrefix_fits {a : Addr} (parsed : parsePrefix s = some (a, ones)) :
    ones ≤ 8 * a.bytes.length := by
  unfold parsePrefix at parsed
  split at parsed
  · cases parsed
  · split at parsed
    · cases parsed
    · replace parsed := (ite_none_left_eq_some.mp parsed).2
      split at parsed
      · cases parsed
      · obtain ⟨within, same⟩ := ite_none_left_eq_some.mp parsed
        cases same
        exact Nat.not_lt.mp fun large => within (.inr large)

/-- An address of sixteen bytes that is one of four bytes for `To4`. -/
def Is4In6 (ip : IP) : Prop := ip.take 12 = v4InV6Prefix

instance (ip : IP) : Decidable (Is4In6 ip) := inferInstanceAs (Decidable (_ = _))

theorem to4_of_four (four : ip.length = 4) : to4 ip = some ip := by
  rw [to4, if_pos four]

theorem to4_of_sixteen (sixteen : ip.length = 16) :
    to4 ip = if Is4In6 ip then some (ip.drop 12) else none := by
  have short : ip.length ≠ 4 := by omega
  by_cases here : Is4In6 ip
  · rw [to4, if_neg short, if_pos ⟨sixteen, here⟩, if_pos here]
  · rw [to4, if_neg short, if_neg fun both => here both.2, if_neg here]

theorem getD_to4_of_sixteen (sixteen : ip.length = 16) :
    (to4 ip).getD ip = if Is4In6 ip then ip.drop 12 else ip := by
  rw [to4_of_sixteen sixteen]
  split <;> rfl

theorem is4In6_iff (sixteen : ip.length = 16) : Is4In6 ip ↔ uint ip / 2 ^ 32 = 0xffff := by
  have cut := uint_append (ip.take 12) (ip.drop 12)
  have low := uint_lt (ip.drop 12)
  have four : (ip.drop 12).length = 4 := by rw [length_drop, sixteen]
  have twelve : (ip.take 12).length = v4InV6Prefix.length := by
    rw [length_take, sixteen]
    rfl
  have mapped : uint v4InV6Prefix = 0xffff := by decide
  rw [take_append_drop, four] at cut
  rw [four] at low
  have high : uint ip / 2 ^ 32 = uint (ip.take 12) := by omega
  rw [high]
  constructor
  · intro here
    rw [here, mapped]
  · intro number
    exact uint_injective twelve (number.trans mapped.symm)

theorem div_two_pow {m n : Nat} (few : m ≤ n) (b : Nat) : b / 2 ^ n = b / 2 ^ m / 2 ^ (n - m) := by
  rw [Nat.div_div_eq_div_mul, ← Nat.pow_add, Nat.add_sub_cancel' few]

theorem is4In6_congr {a : IP} (sixteen : ip.length = 16) (long : 96 ≤ ones) (lt : InBlock ip ones a) :
    Is4In6 a ↔ Is4In6 ip := by
  obtain ⟨length, bits⟩ := lt
  rw [sixteen] at bits length
  have few : 8 * 16 - ones ≤ 32 := by omega
  rw [is4In6_iff length, is4In6_iff sixteen, div_two_pow few, bits, ← div_two_pow few]

theorem long_of_masked_is4In6 (sixteen : ip.length = 16) (mapped : Is4In6 (masked ip ones)) :
    96 ≤ ones := by
  by_contra short
  have number := (is4In6_iff ((masked_length ip ones).trans sixteen)).mp mapped
  have width : 2 ^ (8 * 16 - ones) = 2 ^ (95 - ones) * 2 * 2 ^ 32 := by
    rw [Nat.mul_assoc, ← Nat.pow_succ', ← Nat.pow_add]
    congr 1
    omega
  rw [uint_masked ip (by omega), sixteen, width, ← Nat.mul_assoc, Nat.mul_div_cancel _ (by decide),
    ← Nat.mul_assoc]
    at number
  omega

theorem zipWith_masked (ip : IP) (fits : ones ≤ 8 * ip.length) :
    List.zipWith (· &&& ·) (masked ip ones) (cidrMask ip.length ones) = masked ip ones := by
  have twice := masked_masked ip fits
  rw [masked, masked_length] at twice
  exact twice

section Contains

variable {a : Addr} {ones : Nat} {ip : IP}

theorem contains_plain (fits : ones ≤ 8 * a.bytes.length) (length : ip.length = a.bytes.length)
    (base : (to4 (masked a.bytes ones)).getD (masked a.bytes ones) = masked a.bytes ones)
    (here : (to4 ip).getD ip = ip) : contains (network a ones) ip = true ↔ InBlock a.bytes ones ip := by
  have number : networkNumberAndMask (network a ones) = (masked a.bytes ones,
    cidrMask a.bytes.length ones) := by
    cases a.length_bytes with
    | inl four => simp [networkNumberAndMask, network, base, four]
    | inr sixteen => simp [networkNumberAndMask, network, base, sixteen]
  have bytes : List.zipWith (· &&& ·) ip (cidrMask a.bytes.length ones) = masked ip ones := by
    rw [masked, length]
  rw [inBlock_iff fits, contains, number]
  simp only [here, length, masked_length, zipWith_masked a.bytes fits, bytes]
  simp [eq_comm]

theorem contains_of_four (fits : ones ≤ 8 * a.bytes.length) (four : a.bytes.length = 4)
    (length : ip.length = 4) : contains (network a ones) ip = true ↔ InBlock a.bytes ones ip := by
  apply contains_plain fits (length.trans four.symm)
  · rw [to4_of_four ((masked_length _ _).trans four), Option.getD_some]
  · rw [to4_of_four length, Option.getD_some]

theorem contains_of_longer (fits : ones ≤ 8 * a.bytes.length) (sixteen : a.bytes.length = 16)
    (base : ¬ Is4In6 (masked a.bytes ones)) (length : ip.length = 16) :
    contains (network a ones) ip = true ↔ ¬ Is4In6 ip ∧ InBlock a.bytes ones ip := by
  have sixteen' : (masked a.bytes ones).length = 16 := (masked_length _ _).trans sixteen
  have base' := (getD_to4_of_sixteen sixteen').trans (if_neg base)
  by_cases mapped : Is4In6 ip
  · have cut := (getD_to4_of_sixteen length).trans (if_pos mapped)
    have number : networkNumberAndMask (network a ones) = (masked a.bytes ones,
      cidrMask a.bytes.length ones) := by
      simp [networkNumberAndMask, network, base', sixteen]
    rw [contains, number]
    simp [cut, length, sixteen, mapped]
  · have here := (getD_to4_of_sixteen length).trans (if_neg mapped)
    rw [contains_plain fits (length.trans sixteen.symm) base' here]
    exact (and_iff_right mapped).symm

theorem masked_of_sixteen (length : ip.length = 16) (long : 96 ≤ ones) :
    masked ip ones = ip.take 12 ++ masked (ip.drop 12) (ones - 96) := by
  have twelve : (ip.take 12).length = 12 := by rw [length_take, length, Nat.min_eq_left (by decide)]
  have parts := masked_append (ip.take 12) (ip.drop 12) (n := ones) (by omega)
  rw [take_append_drop, twelve] at parts
  exact parts

theorem contains_of_mapped (fits : ones ≤ 8 * a.bytes.length) (sixteen : a.bytes.length = 16)
    (base : Is4In6 (masked a.bytes ones)) (length : ip.length = 16) :
    contains (network a ones) ip = true ↔ InBlock a.bytes ones ip := by
  have long : 96 ≤ ones := long_of_masked_is4In6 sixteen base
  have sixteen' : (masked a.bytes ones).length = 16 := (masked_length _ _).trans sixteen
  have twelve : (a.bytes.take 12).length = 12 := by rw [length_take, sixteen, Nat.min_eq_left
    (by decide)]
  have parts := masked_of_sixteen sixteen long
  have front : a.bytes.take 12 = v4InV6Prefix := by
    rw [Is4In6, parts, take_left' twelve] at base
    exact base
  have four : (a.bytes.drop 12).length = 4 := by rw [length_drop, sixteen]
  have low : (cidrMask 16 ones).drop 12 = cidrMask 4 (ones - 96) := cidrMask_drop (k := 12) (l := 4) long
  have number : networkNumberAndMask (network a ones) =
      (masked (a.bytes.drop 12) (ones - 96), cidrMask (a.bytes.drop 12).length (ones - 96)) := by
    have back : (masked a.bytes ones).drop 12 = masked (a.bytes.drop 12) (ones - 96) := by
      rw [parts, drop_left' twelve]
    simp [networkNumberAndMask, network, to4_of_sixteen sixteen', base, sixteen, low, back]
  rw [inBlock_iff fits, sixteen, masked_of_sixteen length long, parts, front, contains, number]
  by_cases mapped : Is4In6 ip
  · have cut := (getD_to4_of_sixteen length).trans (if_pos mapped)
    have four' : (ip.drop 12).length = (a.bytes.drop 12).length := by
      rw [length_drop, length_drop, length, sixteen]
    have bytes : List.zipWith (· &&& ·) (ip.drop 12) (cidrMask (a.bytes.drop 12).length (ones - 96)) =
        masked (ip.drop 12) (ones - 96) := by
      rw [masked, four']
    have whole := zipWith_masked (a.bytes.drop 12) (show ones - 96 ≤ 8 * (a.bytes.drop 12).length by omega)
    rw [Is4In6] at mapped
    simp only [cut, four', masked_length, whole, bytes, mapped]
    simp [length, eq_comm]
  · have kept := (getD_to4_of_sixteen length).trans (if_neg mapped)
    have apart : ip.take 12 ++ masked (ip.drop 12) (ones - 96) ≠
        v4InV6Prefix ++ masked (a.bytes.drop 12) (ones - 96) := by
      intro same
      have twelve' : (ip.take 12).length = v4InV6Prefix.length := by
        rw [length_take, length]
        rfl
      exact mapped (append_inj_left same twelve')
    simp only [kept, length, masked_length, four]
    simp [apart]

end Contains

end Monitor.NetIP
