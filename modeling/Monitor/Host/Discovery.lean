import Monitor.Lib.NetIP

/-! # Scanning a network

`scanNetwork` and `performNetworkScan` of `discovery.go`. Both go from the first address of a block to
the next one with `inc` as long as `Contains` holds. The walk leaves a block at its end, except where
the block is the whole of the addresses of four bytes; and it stops before the end where the block has
addresses that `Contains` takes for shorter ones.
-/

namespace Monitor.Host

open GoText BigEndian NetIP List

/-- The loop of `inc` from the position before `j` down. -/
def incFrom (ip : IP) : Nat → IP
  | 0 => ip
  | j + 1 =>
    let ip' := ip.modify j (· + 1)
    if ip'.getD j 0 > 0 then ip' else incFrom ip' j

def inc (ip : IP) : IP := incFrom ip ip.length

/-- The loop of both scans with what the body does; it may run out of fuel. -/
def scanLoop {σ : Type} (body : σ → IP → σ) (ipnet : IPNet) : Nat → IP → σ → Option σ
  | 0, _, _ => none
  | fuel + 1, ip, s => if contains ipnet ip then scanLoop body ipnet fuel (inc ip) (body s ip) else some s

/-- What `scanNetwork` collects; a host stands for its address. -/
structure ScanLists where
  discovered : List IP
  failed : List IP

/-- One round of `scanNetwork`; `scanHost` gets the number of the round and the address. -/
def ScanLists.visit (scanHost : Nat → IP → Bool) (r : ScanLists) (ip : IP) : ScanLists :=
  if scanHost (r.discovered.length + r.failed.length) ip then { r with discovered := r.discovered ++ [ip] }
  else { r with failed := r.failed ++ [ip] }

/-- `scanNetwork`; nothing is scanned where a scan of the same text is going on. -/
def scanNetwork (scanHost : Nat → IP → Bool) (activeScans : List GoString) (fuel : Nat)
    (networkRange : GoString) :
    Option ScanLists :=
  if activeScans.contains networkRange then some ⟨[], []⟩
  else
    match parseCIDR networkRange with
    | none => some ⟨[], []⟩
    | some (ip, ipnet) => scanLoop (ScanLists.visit scanHost) ipnet fuel (mask ip ipnet.mask) ⟨[], []⟩

/-- `HostDiscoveryResponse`. -/
structure HostDiscoveryResponse where
  success : Bool
  discovered : List IP
  failed : List IP
  totalScanned : Nat
  message : GoString

/-- One round of `performNetworkScan`. -/
def HostDiscoveryResponse.visit (scanHost : Nat → IP → Bool) (r : HostDiscoveryResponse) (ip : IP) :
    HostDiscoveryResponse :=
  if scanHost r.totalScanned ip then
    { r with totalScanned := r.totalScanned + 1, discovered := r.discovered ++ [ip] }
  else { r with totalScanned := r.totalScanned + 1, failed := r.failed ++ [ip] }

def HostDiscoveryResponse.finish (r : HostDiscoveryResponse) : HostDiscoveryResponse :=
  { r with
    success := true
    message := utf8 "扫描完成，发现 " ++ natDigits r.discovered.length ++ utf8 " 个主机" }

def performNetworkScan (scanHost : Nat → IP → Bool) (fuel : Nat) (networkRange : GoString) :
    Option HostDiscoveryResponse :=
  match parseCIDR networkRange with
  | none => some ⟨false, [], [], 0, utf8 "网络范围解析失败: invalid CIDR address: " ++ networkRange⟩
  | some (ip, ipnet) =>
    (scanLoop (HostDiscoveryResponse.visit scanHost) ipnet fuel (mask ip ipnet.mask)
      ⟨false, [], [], 0, []⟩).map
      HostDiscoveryResponse.finish

variable (high low : IP)

theorem modify_middle (b : UInt8) :
    (high ++ b :: low).modify high.length (· + 1) = high ++ (b + 1) :: low := by
  induction high with
  | nil => rfl
  | cons c high ih => rw [cons_append, length_cons, modify_succ_cons, ih, cons_append]

theorem incFrom_middle (b : UInt8) : incFrom (high ++ b :: low) (high.length + 1) =
      if b + 1 > 0 then high ++ (b + 1) :: low else incFrom (high ++ (b + 1) :: low) high.length := by
  have byte : (high ++ (b + 1) :: low).getD high.length 0 = b + 1 := by simp
  simp only [incFrom, modify_middle, byte]

theorem incFrom_append : incFrom (high ++ low) high.length = inc high ++ low := by
  induction high using List.reverseRecOn generalizing low with
  | nil => rfl
  | append_singleton high b ih =>
    have whole := incFrom_middle high [] b
    rw [inc, length_append, length_singleton, append_assoc, singleton_append, incFrom_middle, whole]
    split
    · rw [append_assoc, singleton_append]
    · rw [ih, ih, append_assoc, singleton_append]

theorem inc_concat (high : IP) (b : UInt8) :
    inc (high ++ [b]) = if b + 1 > 0 then high ++ [b + 1] else inc high ++ [b + 1] := by
  rw [inc, length_append, length_singleton, incFrom_middle, incFrom_append]

variable (ip : IP)

@[simp] theorem inc_length : (inc ip).length = ip.length := by
  induction ip using List.reverseRecOn with
  | nil => rfl
  | append_singleton high b ih =>
    rw [inc_concat]
    split
    · rw [length_append, length_append, length_singleton, length_singleton]
    · rw [length_append, length_append, ih, length_singleton, length_singleton]

theorem uint_inc : uint (inc ip) = (uint ip + 1) % 256 ^ ip.length := by
  induction ip using List.reverseRecOn with
  | nil => rfl
  | append_singleton high b ih =>
    have below := b.toNat_lt
    have small := uint_lt high
    have next : (b + 1).toNat = (b.toNat + 1) % 256 := UInt8.toNat_add b 1
    rw [inc_concat, length_append, length_singleton, Nat.pow_succ, uint_concat]
    split
    · rename_i more
      have more' : 0 < (b + 1).toNat := more
      have fits : uint high * 256 + b.toNat + 1 < 256 ^ high.length * 256 := by omega
      rw [uint_concat, next, Nat.mod_eq_of_lt fits]
      omega
    · rename_i carry
      have zero : ¬ 0 < (b + 1).toNat := carry
      have last : b.toNat = 255 := by omega
      have whole : uint high * 256 + 255 + 1 = (uint high + 1) * 256 := by omega
      rw [uint_concat, next, ih, last, whole, Nat.mul_mod_mul_right]
      exact Nat.add_zero _

theorem iterate_inc_length (i : Nat) : (inc^[i] ip).length = ip.length := by
  induction i with
  | zero => rfl
  | succ i ih => rw [Function.iterate_succ_apply', inc_length, ih]

theorem uint_iterate_inc (i : Nat) : uint (inc^[i] ip) = (uint ip + i) % 256 ^ ip.length := by
  induction i with
  | zero => exact (Nat.mod_eq_of_lt (uint_lt ip)).symm
  | succ i ih =>
    rw [Function.iterate_succ_apply', uint_inc, iterate_inc_length, ih, Nat.mod_add_mod, Nat.add_assoc]

def walk (ip : IP) (count : Nat) : List IP := (List.range count).map fun i => inc^[i] ip

theorem walk_succ (count : Nat) : walk ip (count + 1) = ip :: walk (inc ip) count := by
  rw [walk, range_succ_eq_map, map_cons, map_map]
  rfl

section Loop

variable {σ : Type} {body : σ → IP → σ} {ipnet : IPNet}

theorem scanLoop_of_walk {count : Nat} {ip : IP} (lt : ∀ i < count, contains ipnet (inc^[i] ip) = true)
    (outside : contains ipnet (inc^[count] ip) = false) (s : σ) :
    scanLoop body ipnet (count + 1) ip s = some ((walk ip count).foldl body s) := by
  induction count generalizing ip s with
  | zero =>
    have here : contains ipnet ip = false := outside
    rw [scanLoop, here]
    rfl
  | succ count ih =>
    have here : contains ipnet ip = true := lt 0 (Nat.succ_pos count)
    rw [scanLoop, if_pos here, ih (fun i below => lt (i + 1) (Nat.succ_lt_succ below)) outside,
      walk_succ, foldl_cons]

theorem walk_of_scanLoop {fuel : Nat} {ip : IP} {s s' : σ} (ends : scanLoop body ipnet fuel ip s = some s') :
    ∃ count, (∀ i < count, contains ipnet (inc^[i] ip) = true) ∧ contains ipnet (inc^[count] ip) = false ∧
      s' = (walk ip count).foldl body s := by
  induction fuel generalizing ip s with
  | zero => cases ends
  | succ fuel ih =>
    by_cases here : contains ipnet ip = true
    · rw [scanLoop, if_pos here] at ends
      obtain ⟨count, lt, outside, result⟩ := ih ends
      refine ⟨count + 1, fun i below => ?_, outside, ?_⟩
      · cases i with
        | zero => exact here
        | succ i => exact lt i (Nat.lt_of_succ_lt_succ below)
      · rw [walk_succ, foldl_cons, result]
    · rw [scanLoop, if_neg here] at ends
      cases ends
      exact ⟨0, fun i below => (Nat.not_lt_zero i below).elim, Bool.not_eq_true _ ▸ here, rfl⟩

end Loop

def blockSize (ip : IP) (ones : Nat) : Nat := 2 ^ (8 * ip.length - ones)

section Block

variable {ip : IP} {ones : Nat}

theorem blockSize_pos : 0 < blockSize ip ones := Nat.two_pow_pos _

section

variable (fits : ones ≤ 8 * ip.length)
include fits

theorem addresses_eq : 256 ^ ip.length = 2 ^ ones * blockSize ip ones := by
  have bits : 256 ^ ip.length = 2 ^ (8 * ip.length) := (Nat.pow_mul 2 8 ip.length).symm
  rw [bits, blockSize, ← Nat.pow_add]
  congr 1
  omega

theorem blockNumber_lt : uint ip / blockSize ip ones < 2 ^ ones := by
  have small := uint_lt ip
  rw [addresses_eq fits] at small
  exact Nat.div_lt_of_lt_mul (Nat.mul_comm _ _ ▸ small)

theorem uint_walk {i : Nat} (below : i < blockSize ip ones) :
    uint (inc^[i] (masked ip ones)) = uint ip / blockSize ip ones * blockSize ip ones + i := by
  have base := uint_masked ip fits
  have within : uint ip / blockSize ip ones * blockSize ip ones + i < 2 ^ ones * blockSize ip ones := by
    calc uint ip / blockSize ip ones * blockSize ip ones + i
        < uint ip / blockSize ip ones * blockSize ip ones + blockSize ip ones := Nat.add_lt_add_left below _
      _ = (uint ip / blockSize ip ones + 1) * blockSize ip ones := (Nat.succ_mul _ _).symm
      _ ≤ 2 ^ ones * blockSize ip ones := Nat.mul_le_mul_right _ (blockNumber_lt fits)
  rw [uint_iterate_inc, masked_length, addresses_eq fits, base]
  exact Nat.mod_eq_of_lt within

theorem walk_inBlock {i : Nat} (below : i < blockSize ip ones) :
    InBlock ip ones (inc^[i] (masked ip ones)) := by
  refine ⟨(iterate_inc_length _ _).trans (masked_length _ _), ?_⟩
  rw [uint_walk fits below]
  change _ / blockSize ip ones = _ / blockSize ip ones
  rw [Nat.mul_comm, Nat.mul_add_div blockSize_pos, Nat.div_eq_of_lt below, Nat.add_zero]

theorem walk_leaves (several : ones ≠ 0) :
    ¬ InBlock ip ones (inc^[blockSize ip ones] (masked ip ones)) := by
  intro lt
  have number := lt.2
  change _ / blockSize ip ones = _ / blockSize ip ones at number
  have next : uint ip / blockSize ip ones * blockSize ip ones + blockSize ip ones =
      (uint ip / blockSize ip ones + 1) * blockSize ip ones := (Nat.succ_mul _ _).symm
  have base : uint (masked ip ones) = uint ip / blockSize ip ones * blockSize ip ones := uint_masked ip fits
  rw [uint_iterate_inc, masked_length, addresses_eq fits, base, next, Nat.mul_mod_mul_right,
    Nat.mul_div_cancel _ blockSize_pos] at number
  have two : 2 ≤ 2 ^ ones := Nat.le_self_pow several 2
  by_cases last : uint ip / blockSize ip ones + 1 = 2 ^ ones
  · rw [last, Nat.mod_self] at number
    omega
  · rw [Nat.mod_eq_of_lt (by omega)] at number
    omega

theorem mem_walk (a : IP) : a ∈ walk (masked ip ones) (blockSize ip ones) ↔ InBlock ip ones a := by
  constructor
  · intro mem
    obtain ⟨i, below, rfl⟩ := mem_map.mp mem
    exact walk_inBlock fits (mem_range.mp below)
  · intro lt
    obtain ⟨length, number⟩ := lt
    change _ / blockSize ip ones = _ / blockSize ip ones at number
    have below : uint a % blockSize ip ones < blockSize ip ones := Nat.mod_lt _ blockSize_pos
    refine mem_map.mpr ⟨uint a % blockSize ip ones, mem_range.mpr below, ?_⟩
    apply uint_injective
    · rw [iterate_inc_length, masked_length, length]
    · rw [uint_walk fits below, ← number]
      exact Nat.div_add_mod' _ _

theorem walk_nodup : (walk (masked ip ones) (blockSize ip ones)).Nodup := by
  apply List.Nodup.map_on _ nodup_range
  intro i below j below' same
  have numbers := congrArg uint same
  rw [uint_walk fits (mem_range.mp below), uint_walk fits (mem_range.mp below')] at numbers
  exact Nat.add_left_cancel numbers

end

end Block

/-- Both scans end, and what they scan on the way are the addresses of the block, each of them once. -/
structure ScansBlock (networkRange : GoString) (a : Addr) (ones : Nat) (visited : List IP) : Prop where
  once : visited.Nodup
  covers : ∀ ip, ip ∈ visited ↔ InBlock a.bytes ones ip
  scans : ∀ scanHost activeScans, networkRange ∉ activeScans → ∃ fuel,
    scanNetwork scanHost activeScans fuel networkRange =
      some (visited.foldl (ScanLists.visit scanHost) ⟨[], []⟩)
  performs : ∀ scanHost, ∃ fuel, performNetworkScan scanHost fuel networkRange =
    some (visited.foldl (HostDiscoveryResponse.visit scanHost) ⟨false, [], [], 0, []⟩).finish

/-- The address `::ffff:0.0.0.0`. -/
def firstMapped : IP := v4InV6Prefix ++ [0, 0, 0, 0]

/-- Not the whole of the short addresses, and not a block with the addresses that begin with `::ffff`
    and others. -/
def Scannable (a : Addr) (ones : Nat) : Prop :=
  if a.bytes.length = 4 then ones ≠ 0 else 96 ≤ ones ∨ ¬ InBlock a.bytes ones firstMapped

section Scans

variable {networkRange : GoString} {a : Addr} {ones : Nat}

section

variable (parsed : parsePrefix networkRange = some (a, ones))
include parsed

theorem scanNetwork_eq (scanHost : Nat → IP → Bool)
    {activeScans : List GoString} (idle : networkRange ∉ activeScans) (fuel : Nat) :
    scanNetwork scanHost activeScans fuel networkRange =
      scanLoop (ScanLists.visit scanHost) (network a ones) fuel (masked a.bytes ones) ⟨[], []⟩ := by
  rw [scanNetwork, if_neg (by simpa using idle), parseCIDR_of_prefix parsed]
  simp only [network, mask_as16]

theorem performNetworkScan_eq (scanHost : Nat → IP → Bool)
    (fuel : Nat) : performNetworkScan scanHost fuel networkRange =
      (scanLoop (HostDiscoveryResponse.visit scanHost) (network a ones) fuel (masked a.bytes ones)
        ⟨false, [], [], 0, []⟩).map HostDiscoveryResponse.finish := by
  rw [performNetworkScan, parseCIDR_of_prefix parsed]
  simp only [network, mask_as16]

theorem scansBlock_of_contains (several : ones ≠ 0) (agrees : ∀ ip : IP, ip.length = a.bytes.length →
      (contains (network a ones) ip = true ↔ InBlock a.bytes ones ip)) :
    ScansBlock networkRange a ones (walk (masked a.bytes ones) (blockSize a.bytes ones)) := by
  have fits := parsePrefix_fits parsed
  have length : ∀ i, (inc^[i] (masked a.bytes ones)).length = a.bytes.length := fun i =>
    (iterate_inc_length _ _).trans (masked_length _ _)
  have lt : ∀ i < blockSize a.bytes ones, contains (network a ones) (inc^[i] (masked a.bytes ones)) =
    true :=
    fun i below => (agrees _ (length i)).mpr (walk_inBlock fits below)
  have outside : contains (network a ones) (inc^[blockSize a.bytes ones] (masked a.bytes ones)) = false :=
    Bool.eq_false_iff.mpr fun within => walk_leaves fits several ((agrees _ (length _)).mp within)
  refine ⟨walk_nodup fits, mem_walk fits, fun scanHost activeScans idle => ?_, fun scanHost => ?_⟩
  · refine ⟨blockSize a.bytes ones + 1, ?_⟩
    rw [scanNetwork_eq parsed scanHost idle, scanLoop_of_walk lt outside]
  · refine ⟨blockSize a.bytes ones + 1, ?_⟩
    rw [performNetworkScan_eq parsed, scanLoop_of_walk lt outside, Option.map_some]

end

theorem inBlock_firstMapped {ip : IP} (sixteen : a.bytes.length = 16) (short : ones ≤ 96)
    (mapped : Is4In6 ip) (lt : InBlock a.bytes ones ip) : InBlock a.bytes ones firstMapped := by
  obtain ⟨length, number⟩ := lt
  refine ⟨sixteen.symm, number ▸ ?_⟩
  have few : 32 ≤ 8 * 16 - ones := by omega
  have first : uint firstMapped / 2 ^ 32 = 0xffff := by decide
  rw [sixteen, div_two_pow few, div_two_pow few (uint ip), first,
    (is4In6_iff (length.trans sixteen)).mp mapped]

theorem contains_of_scannable (parsed : parsePrefix networkRange = some (a, ones))
    (scannable : Scannable a ones) {ip : IP} (length : ip.length = a.bytes.length) :
    contains (network a ones) ip = true ↔ InBlock a.bytes ones ip := by
  have fits := parsePrefix_fits parsed
  cases a.length_bytes with
  | inl four => exact contains_of_four fits four (length.trans four)
  | inr sixteen =>
    by_cases base : Is4In6 (masked a.bytes ones)
    · exact contains_of_mapped fits sixteen base (length.trans sixteen)
    · rw [contains_of_longer fits sixteen base (length.trans sixteen)]
      refine and_iff_right_of_imp fun lt mapped => ?_
      rw [Scannable, if_neg (by omega)] at scannable
      by_cases long : 96 ≤ ones
      · have first := is4In6_congr sixteen long lt
        have second := is4In6_congr sixteen long (masked_inBlock a.bytes fits)
        exact base (second.mpr (first.mp mapped))
      · exact scannable.elim long fun apart => apart (inBlock_firstMapped sixteen (by omega) mapped lt)

theorem several_of_scannable (scannable : Scannable a ones) : ones ≠ 0 := by
  intro none
  rw [Scannable, none] at scannable
  cases a.length_bytes with
  | inl four => exact (if_pos four ▸ scannable) rfl
  | inr sixteen =>
    rw [if_neg (by omega)] at scannable
    exact scannable.elim (by decide) fun apart => apart (inBlock_zero sixteen.symm)

theorem failed_foldl (visited : List IP) (r : HostDiscoveryResponse) :
    (visited.foldl (HostDiscoveryResponse.visit fun _ _ => false) r).failed = r.failed ++ visited := by
  induction visited generalizing r with
  | nil => exact (append_nil _).symm
  | cons ip visited ih =>
    rw [foldl_cons, ih]
    exact append_assoc _ _ _

theorem walk_of_scansBlock {visited : List IP} (parsed : parsePrefix networkRange = some (a, ones))
    (scans : ScansBlock networkRange a ones visited) :
    (∀ ip ∈ visited, contains (network a ones) ip = true) ∧
      ∃ ip : IP, ip.length = a.bytes.length ∧ contains (network a ones) ip = false := by
  obtain ⟨fuel, ends⟩ := scans.performs fun _ _ => false
  rw [performNetworkScan_eq parsed] at ends
  obtain ⟨r, loop, finished⟩ := Option.map_eq_some_iff.mp ends
  obtain ⟨count, lt, outside, result⟩ := walk_of_scanLoop loop
  have failed : r.failed = (visited.foldl (HostDiscoveryResponse.visit fun _ _ => false)
      ⟨false, [], [], 0, []⟩).failed := (congrArg HostDiscoveryResponse.failed finished :)
  rw [result, failed_foldl, failed_foldl, nil_append, nil_append] at failed
  refine ⟨fun ip mem => ?_, _, (iterate_inc_length _ _).trans (masked_length _ _), outside⟩
  rw [← failed] at mem
  obtain ⟨i, below, rfl⟩ := mem_map.mp mem
  exact lt i (mem_range.mp below)

theorem scannable_of_scansBlock {visited : List IP} (parsed : parsePrefix networkRange = some (a, ones))
    (scans : ScansBlock networkRange a ones visited) : Scannable a ones := by
  have fits := parsePrefix_fits parsed
  obtain ⟨lt, ip, length, outside⟩ := walk_of_scansBlock parsed scans
  cases a.length_bytes with
  | inl four =>
    rw [Scannable, if_pos four]
    intro none
    have everything : InBlock a.bytes ones ip := none ▸ inBlock_zero length
    rw [(contains_of_four fits four (length.trans four)).mpr everything] at outside
    cases outside
  | inr sixteen =>
    rw [Scannable, if_neg (by omega)]
    by_cases long : 96 ≤ ones
    · exact .inl long
    · right
      intro mapped
      have base : ¬ Is4In6 (masked a.bytes ones) := fun early => long (long_of_masked_is4In6 sixteen early)
      have within := lt firstMapped ((scans.covers firstMapped).mpr mapped)
      exact ((contains_of_longer fits sixteen base rfl).mp within).1 rfl

end Scans

/-- For every text that `ParseCIDR` accepts, both scans end and scan every address of the block once and no
    other exactly when the block is not `0.0.0.0/0` and not a block of long addresses, wider than `/96`,
    that has `::ffff:0.0.0.0` in it. -/
theorem scansBlock_iff_scannable {networkRange : GoString} {a : Addr} {ones : Nat}
    (parsed : parsePrefix networkRange = some (a, ones)) :
    (∃ visited, ScansBlock networkRange a ones visited) ↔ Scannable a ones := by
  constructor
  · intro scans
    obtain ⟨visited, scans⟩ := scans
    exact scannable_of_scansBlock parsed scans
  · intro scannable
    exact ⟨_, scansBlock_of_contains parsed (several_of_scannable scannable) fun ip length =>
      contains_of_scannable parsed scannable length⟩

theorem scansBlock_iff_scannable_small :
    parsePrefix (ascii "10.0.0.0/30") = some (⟨[10, 0, 0, 0], .inl rfl⟩, 30) ∧
      ∃ visited, ScansBlock (ascii "10.0.0.0/30") ⟨[10, 0, 0, 0], .inl rfl⟩ 30 visited := by
  have parsed : parsePrefix (ascii "10.0.0.0/30") = some (⟨[10, 0, 0, 0], .inl rfl⟩, 30) := by decide +kernel
  exact ⟨parsed, (scansBlock_iff_scannable parsed).mpr (show (30 : Nat) ≠ 0 by decide)⟩

/-- The scan of all short addresses never ends, and the one of `::/64` stops before `::ffff:0.0.0.0`. -/
theorem widest_scans :
    parsePrefix (ascii "0.0.0.0/0") = some (⟨[0, 0, 0, 0], .inl rfl⟩, 0) ∧
    (∀ scanHost fuel, performNetworkScan scanHost fuel (ascii "0.0.0.0/0") = none) ∧
    parsePrefix (ascii "::/64") = some (⟨List.replicate 16 0, .inr rfl⟩, 64) ∧
    InBlock (List.replicate 16 0) 64 firstMapped ∧
    ¬ ∃ visited, ScansBlock (ascii "::/64") ⟨List.replicate 16 0, .inr rfl⟩ 64 visited := by
  have short : parsePrefix (ascii "0.0.0.0/0") = some (⟨[0, 0, 0, 0], .inl rfl⟩, 0) := by decide +kernel
  have long : parsePrefix (ascii "::/64") = some (⟨List.replicate 16 0, .inr rfl⟩, 64) := by decide +kernel
  have mapped : InBlock (List.replicate 16 0) 64 firstMapped := ⟨rfl, by decide +kernel⟩
  refine ⟨short, fun scanHost fuel => ?_, long, mapped, fun scans => ?_⟩
  · rw [performNetworkScan_eq short]
    cases loop : scanLoop (HostDiscoveryResponse.visit scanHost) (network ⟨[0, 0, 0, 0], .inl rfl⟩ 0) fuel
        (masked [0, 0, 0, 0] 0) ⟨false, [], [], 0, []⟩ with
    | none => rfl
    | some r =>
      obtain ⟨count, inside, outside, result⟩ := walk_of_scanLoop loop
      have length : (inc^[count] (masked [0, 0, 0, 0] 0)).length = 4 := iterate_inc_length _ _
      have everything : contains (network ⟨[0, 0, 0, 0], .inl rfl⟩ 0)
        (inc^[count] (masked [0, 0, 0, 0] 0)) = true := by
        rw [contains_of_four (Nat.zero_le _) rfl length]
        exact inBlock_zero length
      rw [outside] at everything
      cases everything
  · obtain ⟨visited, scans⟩ := scans
    exact (scannable_of_scansBlock long scans).elim (by decide) fun apart => apart mapped

end Monitor.Host
