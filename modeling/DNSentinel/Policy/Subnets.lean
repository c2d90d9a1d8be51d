import DNSentinel.Policy.Responses
import DNSentinel.Wire.Presentation
import Mathlib.Data.List.TakeWhile

/-! # Subnets

`parse_subnet` of `acl.cpp`, and what it means for a client to be in a subnet: that the first bits of its
address are those of the network. `mask` and the comparison of whole arrays come down to that, for every
length of a prefix. An IPv4 client and its IPv4-mapped form are one client to everything that reads its
address. -/

namespace DNSentinel.Policy.Subnets

open DNSentinel.Types Addresses RateLimits
open Responses (countedUnder check_eq)
open Wire.Presentation (isDigit)

/-! ### Bits of an address -/

/-- Bit `k`, from the left. -/
def bit (bytes : List UInt8) (k : ℕ) : Bool := (bytes.getD (k / 8) 0).toNat.testBit (7 - k % 8)

variable {bytes bytes' : List UInt8} {k n : ℕ} {client client' : SockAddr} {ip : IpAddress}

/-- The byte that keeps the first `keep` bits. -/
theorem testBit_keep {keep j : ℕ} (hkeep : keep ≤ 8) (hj : j < 8) :
    (UInt8.ofNat (0xFF00 >>> keep)).toNat.testBit (7 - j) = decide (j < keep) := by
  have hall : ∀ keep ≤ 8, ∀ j < 8,
      (UInt8.ofNat (0xFF00 >>> keep)).toNat.testBit (7 - j) = decide (j < keep) := by decide
  exact hall keep hkeep j hj

theorem length_mask (p : UInt8) (bytes : List UInt8) : (mask p bytes).length = bytes.length :=
  List.length_mapIdx

/-- The mask clears the bits past the prefix, and no other. -/
theorem bit_mask (p : UInt8) (bytes : List UInt8) (k : ℕ) :
    bit (mask p bytes) k = (bit bytes k && decide (k < p.toNat)) := by
  unfold bit mask
  rw [List.getD_eq_getElem?_getD, List.getD_eq_getElem?_getD, List.getElem?_mapIdx]
  cases bytes[k / 8]? with
  | none => simp
  | some b =>
    have hj : k % 8 < 8 := Nat.mod_lt _ (by decide)
    have hkeep : decide (k % 8 < min (p.toNat - k / 8 * 8) 8) = decide (k < p.toNat) := by
      rw [decide_eq_decide]
      omega
    rw [Option.map_some, Option.getD_some, Option.getD_some, UInt8.toNat_and, Nat.testBit_and,
      testBit_keep (Nat.min_le_right _ _) hj, hkeep]

theorem byte_eq_of_testBit {a b : UInt8} (h : ∀ j < 8, a.toNat.testBit (7 - j) = b.toNat.testBit (7 - j)) :
    a = b := by
  refine UInt8.toNat_inj.mp (Nat.eq_of_testBit_eq fun i => ?_)
  by_cases hi : i < 8
  · have hbit := h (7 - i) (by omega)
    rwa [Nat.sub_sub_self (by omega)] at hbit
  · have hbig : 2 ^ 8 ≤ 2 ^ i := Nat.pow_le_pow_right (by decide) (by omega)
    rw [Nat.testBit_lt_two_pow (a.toNat_lt.trans_le hbig),
      Nat.testBit_lt_two_pow (b.toNat_lt.trans_le hbig)]

theorem eq_of_bits (hlength : bytes.length = bytes'.length)
    (h : ∀ k < bytes.length * 8, bit bytes k = bit bytes' k) : bytes = bytes' := by
  refine List.ext_getElem hlength fun i hi hi' => byte_eq_of_testBit fun j hj => ?_
  have hbit := h (8 * i + j) (by omega)
  unfold bit at hbit
  have hdiv : (8 * i + j) / 8 = i := by omega
  have hmod : (8 * i + j) % 8 = j := by omega
  rwa [hdiv, hmod, List.getD_eq_getElem?_getD, List.getD_eq_getElem?_getD, List.getElem?_eq_getElem hi,
    List.getElem?_eq_getElem hi'] at hbit

/-! ### Reading a subnet -/

def addressBytes : Family → ℕ
  | .inet => 4
  | .inet6 => 16

/-- What `c_str()` passes on: the bytes before the first NUL. -/
def cString (text : List UInt8) : List UInt8 := text.takeWhile (· != 0)

def number (digits : List UInt8) : ℕ := digits.foldl (fun n c => 10 * n + (c.toNat - 48)) 0

/-- `std::from_chars` of an `unsigned`: the number, and what follows its digits. -/
def fromChars (text : List UInt8) : Option (ℕ × List UInt8) :=
  let digits := text.takeWhile isDigit
  if digits = [] ∨ 2 ^ 32 ≤ number digits then none else some (number digits, text.dropWhile isDigit)

inductive SubnetError where
  | address (text : List UInt8)
  | prefixLength (text : List UInt8) (bits : ℕ)
  | hostBits (text : List UInt8) (meant : Subnet)
deriving DecidableEq

/-- The text before the first slash. -/
def addressText (text : List UInt8) : List UInt8 := text.takeWhile (· != 47)

/-- The text after the first slash, if there is one. -/
def prefixText (text : List UInt8) : Option (List UInt8) :=
  match text.dropWhile (· != 47) with
  | [] => none
  | _ :: digits => some digits

section Parse

-- `inet_pton`
variable (inetPton : Family → List UInt8 → Option (List UInt8))

/-- The address of a subnet: IPv4 is tried first. -/
def parseAddress (text : List UInt8) : Option (Family × List UInt8) :=
  let address := cString (addressText text)
  match inetPton .inet address with
  | some network => some (.inet, network)
  | none => (inetPton .inet6 address).map fun network => (.inet6, network)

/-- The length of the prefix: a bare address is a single host. -/
def parsePrefix (text : List UInt8) (bits : ℕ) : Option ℕ :=
  match prefixText text with
  | none => some bits
  | some digits =>
    match fromChars digits with
    | some (n, []) => if n ≤ bits then some n else none
    | _ => none

def parseSubnet (text : List UInt8) : Except SubnetError Subnet :=
  match parseAddress inetPton text with
  | none => .error (.address text)
  | some (family, network) =>
    let bits := addressBytes family * 8
    match parsePrefix text bits with
    | none => .error (.prefixLength text bits)
    | some n =>
      let masked := mask (UInt8.ofNat n) network
      if masked = network then .ok ⟨family, network, UInt8.ofNat n⟩
      else .error (.hostBits text ⟨family, masked, UInt8.ofNat n⟩)

end Parse

/-- The text of an error; `to_string()` makes that of the subnet that was meant. -/
def SubnetError.message (toString : Subnet → String) (quote : List UInt8 → String) : SubnetError → String
  | .address text => quote text ++ " is not an IP address or a subnet like 192.168.0.0/16"
  | .prefixLength text bits => quote text ++ ": the prefix length must be 0 to " ++ bits.repr
  | .hostBits text meant => quote text ++ " has host bits set; did you mean " ++ toString meant ++ "?"

/-- `inet_pton` writes the bytes of an address of the family. -/
def WritesAddresses (inetPton : Family → List UInt8 → Option (List UInt8)) : Prop :=
  ∀ family text bytes, inetPton family text = some bytes → bytes.length = addressBytes family

/-- The digits of a number. -/
def Spells (digits : List UInt8) (n : ℕ) : Prop :=
  digits ≠ [] ∧ (∀ c ∈ digits, isDigit c = true) ∧ number digits = n

/-- The text gives a prefix of `n` bits; an address by itself has all its bits. -/
def HasPrefix (text : List UInt8) (bits n : ℕ) : Prop :=
  match prefixText text with
  | none => n = bits
  | some digits => Spells digits n ∧ n ≤ bits

variable {inetPton : Family → List UInt8 → Option (List UInt8)} {text : List UInt8} {s : Subnet}
  {family : Family} {network : List UInt8}

theorem addressBytes_le (family : Family) : addressBytes family ≤ 16 := by
  cases family <;> decide

theorem length_parseAddress (hpton : WritesAddresses inetPton)
    (h : parseAddress inetPton text = some (family, network)) : network.length = addressBytes family := by
  unfold parseAddress at h
  dsimp only at h
  split at h
  · rename_i written hinet
    cases h
    exact hpton _ _ _ hinet
  · obtain ⟨written, hinet6, heq⟩ := Option.map_eq_some_iff.mp h
    cases heq
    exact hpton _ _ _ hinet6

/-- All of the text is read exactly if it is digits and nothing else. -/
theorem fromChars_all {digits : List UInt8} :
    fromChars digits = some (n, []) ↔ Spells digits n ∧ n < 2 ^ 32 := by
  have hall : digits.dropWhile isDigit = [] ↔ ∀ c ∈ digits, isDigit c = true :=
    List.dropWhile_eq_nil_iff
  unfold fromChars Spells
  dsimp only
  constructor
  · intro h
    split_ifs at h with hbad
    rw [Option.some.injEq, Prod.mk.injEq, hall] at h
    obtain ⟨rfl, hdigits⟩ := h
    have htake : digits.takeWhile isDigit = digits := List.takeWhile_eq_self_iff.mpr hdigits
    rw [htake] at hbad ⊢
    exact ⟨⟨fun hnil => hbad (.inl hnil), hdigits, rfl⟩, Nat.lt_of_not_le fun hle => hbad (.inr hle)⟩
  · rintro ⟨⟨hne, hdigits, rfl⟩, hlt⟩
    have htake : digits.takeWhile isDigit = digits := List.takeWhile_eq_self_iff.mpr hdigits
    rw [htake, hall.mpr hdigits, if_neg (by rintro (hnil | hle); exacts [hne hnil, by omega])]

theorem parsePrefix_eq {bits : ℕ} (hbits : bits < 2 ^ 32) :
    parsePrefix text bits = some n ↔ HasPrefix text bits n := by
  unfold parsePrefix HasPrefix
  cases prefixText text with
  | none => simp [eq_comm]
  | some digits =>
    dsimp only
    constructor
    · intro h
      split at h
      · rename_i m hread
        split_ifs at h with hle
        cases h
        exact ⟨(fromChars_all.mp hread).1, hle⟩
      · cases h
    · rintro ⟨hspells, hle⟩
      rw [fromChars_all.mpr ⟨hspells, by omega⟩]
      exact if_pos hle

/-- A network has no bit set past its prefix exactly if the mask leaves it as it is. -/
theorem mask_eq_self {p : UInt8} :
    mask p bytes = bytes ↔ ∀ k, p.toNat ≤ k → k < bytes.length * 8 → bit bytes k = false := by
  constructor
  · intro h k hk _
    have hbit := bit_mask p bytes k
    rw [h, decide_eq_false (by omega), Bool.and_false] at hbit
    exact hbit
  · intro h
    refine eq_of_bits (length_mask p bytes) fun k hk => ?_
    rw [length_mask] at hk
    rw [bit_mask]
    by_cases hp : k < p.toNat
    · rw [decide_eq_true hp, Bool.and_true]
    · rw [decide_eq_false hp, Bool.and_false, h k (by omega) hk]

/-- What the text has to give, for it to be accepted. -/
structure Gives (inetPton : Family → List UInt8 → Option (List UInt8)) (text : List UInt8) (s : Subnet) :
    Prop where
  address : parseAddress inetPton text = some (s.family, s.network)
  length : HasPrefix text (addressBytes s.family * 8) s.prefixLength.toNat
  host : ∀ k, s.prefixLength.toNat ≤ k → k < addressBytes s.family * 8 → bit s.network k = false

theorem HasPrefix.le {bits : ℕ} (h : HasPrefix text bits n) : n ≤ bits := by
  unfold HasPrefix at h
  split at h
  · exact h.le
  · exact h.2

/-- The length of a prefix fits into a byte. -/
theorem HasPrefix.toNat_ofNat (h : HasPrefix text (addressBytes family * 8) n) :
    (UInt8.ofNat n).toNat = n := by
  have hle := h.le
  have hbits := addressBytes_le family
  have hfits : n < UInt8.size := show n < 256 by omega
  exact UInt8.toNat_ofNat_of_lt hfits

theorem parseSubnet_iff (hpton : WritesAddresses inetPton) :
    parseSubnet inetPton text = .ok s ↔ Gives inetPton text s := by
  have hbits (family : Family) : addressBytes family * 8 < 2 ^ 32 := by
    have hle := addressBytes_le family
    omega
  unfold parseSubnet
  constructor
  · intro h
    split at h
    · cases h
    · rename_i family network haddress
      have hlength := length_parseAddress hpton haddress
      dsimp only at h
      split at h
      · cases h
      · rename_i n hn
        split_ifs at h with hmask
        cases h
        have hgiven := (parsePrefix_eq (hbits family)).mp hn
        refine ⟨haddress, ?_, ?_⟩
        · dsimp only
          rwa [hgiven.toNat_ofNat]
        · dsimp only
          rw [← hlength]
          exact mask_eq_self.mp hmask
  · obtain ⟨family, network, p⟩ := s
    rintro ⟨haddress, hgiven, hhost⟩
    dsimp only at haddress hgiven hhost
    have hlength := length_parseAddress hpton haddress
    rw [← hlength] at hhost
    rw [haddress]
    dsimp only
    rw [(parsePrefix_eq (hbits family)).mpr hgiven]
    dsimp only
    rw [UInt8.ofNat_toNat, if_pos (mask_eq_self.mpr hhost)]

/-! ### Being in a subnet -/

theorem length_ipAddress (h : ipAddress client = some ip) : ip.bytes.length = addressBytes ip.family := by
  cases client with
  | inet addr =>
    cases h
    rfl
  | inet6 addr =>
    obtain ⟨bytes, hbytes⟩ := addr
    simp only [ipAddress] at h
    split_ifs at h <;> cases h <;> simp [addressBytes, hbytes]
  | other => cases h

/-- The client's address, with its first bits those of the network. -/
def InSubnet (s : Subnet) (client : SockAddr) : Prop :=
  ∃ ip, ipAddress client = some ip ∧ ip.family = s.family ∧
    ∀ k < s.prefixLength.toNat, bit ip.bytes k = bit s.network k

theorem Gives.length_network (hpton : WritesAddresses inetPton) (h : Gives inetPton text s) :
    s.network.length = addressBytes s.family := length_parseAddress hpton h.address

theorem contains_iff (hlength : s.network.length = addressBytes s.family)
    (hhost : ∀ k, s.prefixLength.toNat ≤ k → k < addressBytes s.family * 8 → bit s.network k = false) :
    s.contains client = true ↔ InSubnet s client := by
  unfold Subnet.contains InSubnet
  cases hip : ipAddress client with
  | none => simp
  | some ip =>
    have hbytes := length_ipAddress hip
    rw [Bool.and_eq_true, beq_iff_eq, beq_iff_eq]
    constructor
    · rintro ⟨hfamily, hnetwork⟩
      refine ⟨ip, rfl, hfamily, fun k hk => ?_⟩
      have hbit := bit_mask s.prefixLength ip.bytes k
      rw [decide_eq_true hk, Bool.and_true] at hbit
      rw [← hbit, ← hnetwork]
      rfl
    · rintro ⟨ip', heq, hfamily, hbits⟩
      obtain rfl := Option.some.inj heq
      refine ⟨hfamily, eq_of_bits ?_ fun k hk => ?_⟩
      · exact (length_mask _ _).trans (by rw [hbytes, hlength, hfamily])
      · have hk' : k < addressBytes s.family * 8 := by
          rw [← hfamily, ← hbytes]
          exact hk.trans_eq (by rw [IpAddress.network, length_mask])
        have hbit : bit (ip.network s.prefixLength).bytes k = _ := bit_mask s.prefixLength ip.bytes k
        rw [hbit]
        by_cases hp : k < s.prefixLength.toNat
        · rw [decide_eq_true hp, Bool.and_true, hbits k hp]
        · rw [decide_eq_false hp, Bool.and_false, hhost k (by omega) hk']

/-! ### The arrays of the source

`IpAddress::bytes` and `Subnet::network` are arrays of 16 bytes, and compared as such. -/

/-- The array that holds an address: zeros follow an IPv4 address. -/
def padded (bytes : List UInt8) : List UInt8 := bytes ++ List.replicate (16 - bytes.length) 0

/-- `mask`, on the first `length` bytes of an array. -/
def maskArray (array : List UInt8) (length : ℕ) (p : UInt8) : List UInt8 :=
  mask p (array.take length) ++ array.drop length

theorem maskArray_padded (p : UInt8) (bytes : List UInt8) :
    maskArray (padded bytes) bytes.length p = padded (mask p bytes) := by
  unfold maskArray padded
  rw [List.take_left, List.drop_left, length_mask]

/-- Comparing the arrays is comparing the addresses. -/
theorem padded_inj (h : bytes.length = bytes'.length) : padded bytes = padded bytes' ↔ bytes = bytes' := by
  refine ⟨fun heq => ?_, fun heq => by rw [heq]⟩
  unfold padded at heq
  rw [h] at heq
  exact (List.append_inj heq h).1

theorem contains_array (hlength : s.network.length = addressBytes s.family) :
    s.contains client = true ↔ ∃ ip, ipAddress client = some ip ∧ ip.family = s.family ∧
      maskArray (padded ip.bytes) (addressBytes ip.family) s.prefixLength = padded s.network := by
  unfold Subnet.contains
  cases hip : ipAddress client with
  | none => simp
  | some ip =>
    have hbytes := length_ipAddress hip
    rw [Bool.and_eq_true, beq_iff_eq, beq_iff_eq]
    have harrays (hfamily : ip.family = s.family) :
        maskArray (padded ip.bytes) (addressBytes ip.family) s.prefixLength = padded s.network ↔
          (ip.network s.prefixLength).bytes = s.network := by
      rw [← hbytes, maskArray_padded]
      exact padded_inj (by rw [length_mask, hbytes, hlength, hfamily])
    constructor
    · rintro ⟨hfamily, hnetwork⟩
      exact ⟨ip, rfl, hfamily, (harrays hfamily).mpr hnetwork⟩
    · rintro ⟨ip', heq, hfamily, hnetwork⟩
      obtain rfl := Option.some.inj heq
      exact ⟨hfamily, (harrays hfamily).mp hnetwork⟩

/-! ### One client, two forms -/

/-- The IPv4-mapped form of an address. -/
def mapped (addr : UInt32) : { l : List UInt8 // l.length = 16 } :=
  ⟨List.replicate 10 0 ++ [0xFF, 0xFF] ++ inetBytes addr, rfl⟩

theorem ipAddress_mapped (addr : UInt32) : ipAddress (.inet6 (mapped addr)) = ipAddress (.inet addr) := by
  simp [ipAddress, mapped, isV4Mapped]

theorem contains_congr (h : ipAddress client = ipAddress client') (s : Subnet) :
    s.contains client = s.contains client' := by
  unfold Subnet.contains
  rw [h]

theorem allows_congr (h : ipAddress client = ipAddress client') (a : AccessControl) :
    a.allows client = a.allows client' := by
  unfold AccessControl.allows
  simp only [contains_congr h]

theorem allow_congr (h : ipAddress client = ipAddress client') (l : RateLimiter) (now : ℕ) :
    l.allow client now = l.allow client' now := by
  unfold RateLimiter.allow
  simp only [contains_congr h, h]

theorem check_congr (h : ipAddress client = ipAddress client') (l : ResponseRateLimiter)
    (response : Message) (now : ℕ) : l.check client response now = l.check client' response now := by
  have hunder : countedUnder l client response = countedUnder l client' response := by
    unfold countedUnder
    simp only [contains_congr h, h]
  rw [check_eq, check_eq, hunder]

/-- **Subnets are matched bit by bit.** A text is accepted exactly if it gives an address and a prefix with
no bit of the address set past it; a client is in an accepted subnet exactly if the first bits of its
address are those of the network; and the two forms of an IPv4 client are treated as one. -/
theorem subnets_match (hpton : WritesAddresses inetPton) :
    (∀ text s, parseSubnet inetPton text = .ok s → ∀ client, s.contains client = true ↔ InSubnet s client) ∧
    (∀ text s, parseSubnet inetPton text = .ok s ↔ Gives inetPton text s) ∧
    ∀ addr, (∀ a : AccessControl, a.allows (.inet6 (mapped addr)) = a.allows (.inet addr)) ∧
      (∀ (l : RateLimiter) now, l.allow (.inet6 (mapped addr)) now = l.allow (.inet addr) now) ∧
      ∀ (l : ResponseRateLimiter) response now,
        l.check (.inet6 (mapped addr)) response now = l.check (.inet addr) response now := by
  refine ⟨fun text s h client => ?_, fun text s => parseSubnet_iff hpton, fun addr => ?_⟩
  · have hgives := (parseSubnet_iff hpton).mp h
    exact contains_iff (hgives.length_network hpton) hgives.host
  · have hform := ipAddress_mapped addr
    exact ⟨allows_congr hform, allow_congr hform, check_congr hform⟩

/-- A reader of one text, that of 172.16.0.0. -/
def readsOne : Family → List UInt8 → Option (List UInt8)
  | .inet, text => if text = [49, 55, 50, 46, 49, 54, 46, 48, 46, 48] then some [172, 16, 0, 0] else none
  | .inet6, _ => none

/-- The network 172.16.0.0/12 ends within a byte. -/
theorem subnets_match_twelve : ∃ s,
    parseSubnet readsOne ([49, 55, 50, 46, 49, 54, 46, 48, 46, 48] ++ [47, 49, 50]) = .ok s ∧
      s.prefixLength = 12 ∧ InSubnet s (.inet6 (mapped 0xAC1FFFFF)) ∧ ¬ InSubnet s (.inet 0xAC200000) := by
  have hwrites : WritesAddresses readsOne := by
    intro family text bytes h
    cases family with
    | inet =>
      simp only [readsOne] at h
      split_ifs at h
      cases h
      rfl
    | inet6 => cases h
  have hparse : parseSubnet readsOne ([49, 55, 50, 46, 49, 54, 46, 48, 46, 48] ++ [47, 49, 50]) =
      .ok ⟨.inet, [172, 16, 0, 0], 12⟩ := by decide
  have hmatch := (subnets_match hwrites).1 _ _ hparse
  refine ⟨_, hparse, rfl, (hmatch _).mp (by decide), fun h => ?_⟩
  have hcontains := (hmatch _).mpr h
  revert hcontains
  decide

end DNSentinel.Policy.Subnets
