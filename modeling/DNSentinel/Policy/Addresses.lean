import DNSentinel.Types

/-! # Client addresses

`acl.cpp` and `rebinding.cpp`: the address of a client, subnets, who may use the resolver, and the
private addresses that answers for public names may not hold. An address has the bytes of its family
only, 4 or 16; the source pads IPv4 with zeros. -/

namespace DNSentinel.Policy.Addresses

open DNSentinel.Types

/-- `sockaddr_storage`, without the port. -/
inductive SockAddr where
  | inet (addr : UInt32)
  | inet6 (addr : { l : List UInt8 // l.length = 16 })
  | other
deriving DecidableEq

inductive Family where
  | inet
  | inet6
deriving Repr, DecidableEq

structure IpAddress where
  family : Family
  bytes : List UInt8
deriving Repr, DecidableEq

/-- The bytes of an IPv4 address, in network order. -/
def inetBytes (addr : UInt32) : List UInt8 :=
  [(addr >>> 24).toUInt8, (addr >>> 16).toUInt8, (addr >>> 8).toUInt8, addr.toUInt8]

/-- `IN6_IS_ADDR_V4MAPPED`. -/
def isV4Mapped (bytes : List UInt8) : Bool :=
  bytes.take 12 == List.replicate 10 0 ++ [0xFF, 0xFF]

/-- An IPv4-mapped IPv6 address is the IPv4 address it is. -/
def ipAddress : SockAddr → Option IpAddress
  | .inet addr => some ⟨.inet, inetBytes addr⟩
  | .inet6 ⟨bytes, _⟩ =>
    if isV4Mapped bytes then some ⟨.inet, bytes.drop 12⟩ else some ⟨.inet6, bytes⟩
  | .other => none

/-- Clear every bit past the first `prefixLength`. -/
def mask (prefixLength : UInt8) (bytes : List UInt8) : List UInt8 :=
  bytes.mapIdx fun i b => b &&& UInt8.ofNat (0xFF00 >>> min (prefixLength.toNat - i * 8) 8)

def IpAddress.network (ip : IpAddress) (prefixLength : UInt8) : IpAddress :=
  { ip with bytes := mask prefixLength ip.bytes }

structure Subnet where
  family : Family
  network : List UInt8
  prefixLength : UInt8
deriving Repr, DecidableEq

def Subnet.contains (s : Subnet) (client : SockAddr) : Bool :=
  match ipAddress client with
  | some ip => ip.family == s.family && (ip.network s.prefixLength).bytes == s.network
  | none => false

/-! ### Access control -/

inductive DenyAction where
  | refuse
  | drop
deriving Repr, DecidableEq

/-- `AccessConfig::localhost`. -/
def localhost : List Subnet :=
  [⟨.inet, [127, 0, 0, 0], 8⟩, ⟨.inet6, List.replicate 15 0 ++ [1], 128⟩]

/-- `AccessConfig`, which `AccessControl` is. -/
structure AccessControl where
  allow : List Subnet := localhost
  deny : DenyAction := .refuse

def AccessControl.allows (a : AccessControl) (client : SockAddr) : Bool :=
  a.allow.any fun s => s.contains client

/-! ### Rebinding protection -/

def privateRanges : List Subnet :=
  [⟨.inet, [0, 0, 0, 0], 8⟩, ⟨.inet, [10, 0, 0, 0], 8⟩, ⟨.inet, [100, 64, 0, 0], 10⟩,
    ⟨.inet, [127, 0, 0, 0], 8⟩, ⟨.inet, [169, 254, 0, 0], 16⟩, ⟨.inet, [172, 16, 0, 0], 12⟩,
    ⟨.inet, [192, 168, 0, 0], 16⟩, ⟨.inet6, List.replicate 16 0, 128⟩,
    ⟨.inet6, List.replicate 15 0 ++ [1], 128⟩, ⟨.inet6, 0xFC :: List.replicate 15 0, 7⟩,
    ⟨.inet6, 0xFE :: 0x80 :: List.replicate 14 0, 10⟩]

def inPrivateRange (address : SockAddr) : Bool := privateRanges.any fun s => s.contains address

def isPrivateAddress : RData → Bool
  | .a addr => inPrivateRange (.inet addr)
  | .aaaa addr => inPrivateRange (.inet6 addr)
  | _ => false

/-- The name of one label that `text` spells. -/
def oneLabel (text : String) : Name :=
  let label := text.toList.map fun c => UInt8.ofNat c.toNat
  ⟨[label], [label]⟩

/-- `RebindingConfig::default_exempt`. -/
def defaultExempt : List Name :=
  (oneLabel "home").appendLabel [97, 114, 112, 97] ::
    ["internal", "localhost", "local", "lan", "home"].map oneLabel

/-- `RebindingConfig`, which `RebindingFilter` is. -/
structure RebindingFilter where
  enabled : Bool := true
  exempt : List Name := defaultExempt

namespace RebindingFilter

def isExempt (f : RebindingFilter) (qname : Name) : Bool :=
  f.exempt.any fun zone => qname.isSubdomainOf zone

/-- `strip`: the answers that are kept, and those removed. -/
def strip (f : RebindingFilter) (qname : Name) (answers : List RR) : List RR × List RR :=
  if !f.enabled || f.isExempt qname then (answers, [])
  else answers.partition fun r => !isPrivateAddress r.rdata

end RebindingFilter

end DNSentinel.Policy.Addresses
