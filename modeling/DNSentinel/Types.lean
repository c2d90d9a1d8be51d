import Mathlib.Algebra.Order.Ring.Nat
import Mathlib.Data.List.Basic
import Mathlib.Data.List.Infix

/-! # The DNS data types

`types.h`: names, headers, records, questions and messages, with the operations on names of
`name.cpp` that the wire code and the resolver use.

A byte is a `UInt8` and a `std::string` or `std::vector` of them a list. Integer fields keep their
width. `operator==` of the source compares names by their canonical labels only and records without
their trust, so it is the `BEq` instance of each type (`==`), and Lean's `=` is the finer structural
equality. `RDataA::addr` holds four bytes in network order; it is the number they spell big-endian. -/

namespace DNSentinel.Types

/-- The bytes of one label. -/
abbrev Label := List UInt8

def kMaxLabelLength : ℕ := 63
def kMaxNameWireLength : ℕ := 255

/-- DNS case folding is ASCII only. -/
def asciiLower (c : UInt8) : UInt8 := if 0x41 ≤ c ∧ c ≤ 0x5A then c - 0x41 + 0x61 else c

/-- The canonical form of a label. -/
def lowerLabel (l : Label) : Label := l.map asciiLower

/-- A DNS name: canonical labels, and the labels as received or as randomised. -/
@[ext] structure Name where
  labels : List Label := []
  originalCase : List Label := []
deriving Repr, Inhabited

namespace Name

instance : BEq Name := ⟨fun a b => a.labels == b.labels⟩

/-- The root name. -/
def root : Name := {}

def appendLabel (n : Name) (raw : Label) : Name where
  labels := n.labels ++ [lowerLabel raw]
  originalCase := n.originalCase ++ [raw]

def labelCount (n : Name) : ℕ := n.labels.length

/-- Sum of `1 + len` per label, plus the trailing zero byte. -/
def wireLength (n : Name) : ℕ := 1 + (n.labels.map fun l => 1 + l.length).sum

/-- `std::equal(zone.rbegin(), zone.rend(), labels.rbegin())` after the length check. -/
def isSubdomainOf (n zone : Name) : Bool :=
  if n.labels.length < zone.labels.length then false
  else n.labels.reverse.take zone.labels.length == zone.labels.reverse

def parent (n : Name) : Name :=
  if n.labels = [] then {}
  else
    { labels := n.labels.tail
      originalCase :=
        if n.originalCase.length = n.labels.length then n.originalCase.tail else n.labels.tail }

/-- Characters that get a backslash in presentation format: `. \\ " ( ) ; @ $`. -/
def needsBackslash (c : UInt8) : Bool := c ∈ ([46, 92, 34, 40, 41, 59, 64, 36] : List UInt8)

/-- One byte in presentation format. -/
def escape (c : UInt8) : List UInt8 :=
  if needsBackslash c then [92, c]
  else if c < 0x21 ∨ 0x7E < c then [92, 48 + c / 100, 48 + c / 10 % 10, 48 + c % 10]
  else [c]

/-- `to_string`: the canonical labels in presentation format. -/
def toString (n : Name) : List UInt8 :=
  if n.labels = [] then [46] else n.labels.flatMap fun l => l.flatMap escape ++ [46]

/-- The labels in the case they are written on the wire. -/
def asWritten (n : Name) : List Label :=
  if n.originalCase.length = n.labels.length then n.originalCase else n.labels

end Name

/-! ### Header -/

structure Header where
  id : UInt16 := 0
  qr : Bool := false
  opcode : UInt8 := 0
  aa : Bool := false
  tc : Bool := false
  rd : Bool := false
  ra : Bool := false
  ad : Bool := false
  cd : Bool := false
  rcode : UInt8 := 0
  qdcount : UInt16 := 0
  ancount : UInt16 := 0
  nscount : UInt16 := 0
  arcount : UInt16 := 0
deriving Repr, Inhabited, DecidableEq

/-- `enum class RCode : uint8_t`; a cast from the wire can hold any value. -/
abbrev RCode := UInt8

namespace RCode
def NoError : RCode := 0
def FormErr : RCode := 1
def ServFail : RCode := 2
def NXDomain : RCode := 3
def NotImp : RCode := 4
def Refused : RCode := 5
end RCode

/-- `enum class RRType : uint16_t`; a cast from the wire can hold any value. -/
abbrev RRType := UInt16

namespace RRType
def A : RRType := 1
def NS : RRType := 2
def CNAME : RRType := 5
def SOA : RRType := 6
def PTR : RRType := 12
def MX : RRType := 15
def TXT : RRType := 16
def AAAA : RRType := 28
def OPT : RRType := 41
end RRType

def kClassIN : UInt16 := 1

/-! ### Records -/

/-- The alternatives of the `RData` variant. -/
inductive RData where
  | a (addr : UInt32)
  | aaaa (addr : { l : List UInt8 // l.length = 16 })
  | ns (nsdname : Name)
  | cname (target : Name)
  | soa (mname rname : Name) (serial refresh retry expire minimum : UInt32)
  | mx (preference : UInt16) (exchange : Name)
  | txt (strings : List (List UInt8))
  | ptr (ptrdname : Name)
  | raw (data : List UInt8)
deriving Repr

instance : Inhabited RData := ⟨.a 0⟩

/-- `operator==` of the variant: the same alternative, with equal members. -/
def RData.beq : RData → RData → Bool
  | .a x, .a y => x == y
  | .aaaa x, .aaaa y => x.val == y.val
  | .ns x, .ns y => x == y
  | .cname x, .cname y => x == y
  | .soa m r s f t e i, .soa m' r' s' f' t' e' i' =>
    m == m' && r == r' && s == s' && f == f' && t == t' && e == e' && i == i'
  | .mx p x, .mx p' y => p == p' && x == y
  | .txt x, .txt y => x == y
  | .ptr x, .ptr y => x == y
  | .raw x, .raw y => x == y
  | _, _ => false

instance : BEq RData := ⟨RData.beq⟩

/-- Trust rank, RFC 2181 §5.4.1. -/
inductive TrustRank where
  | additional
  | glue
  | authority
  | answer
deriving Repr, DecidableEq, Inhabited

def TrustRank.toNat : TrustRank → ℕ
  | .additional => 1
  | .glue => 2
  | .authority => 3
  | .answer => 4

structure RR where
  name : Name := {}
  type : RRType := RRType.A
  cls : UInt16 := 1
  ttl : UInt32 := 0
  rdata : RData := .a 0
  trust : TrustRank := .additional
deriving Repr, Inhabited

/-- A record as it appears on the wire: `trust` is not compared. -/
instance : BEq RR :=
  ⟨fun x y => x.name == y.name && x.type == y.type && x.cls == y.cls && x.ttl == y.ttl &&
    x.rdata == y.rdata⟩

structure Question where
  qname : Name := {}
  qtype : UInt16 := 0
  qclass : UInt16 := 1
deriving Repr, Inhabited

instance : BEq Question :=
  ⟨fun x y => x.qname == y.qname && x.qtype == y.qtype && x.qclass == y.qclass⟩

structure EdnsInfo where
  udpPayloadSize : UInt16 := 512
  extendedRcode : UInt8 := 0
  version : UInt8 := 0
  dnssecOk : Bool := false
deriving Repr, Inhabited, DecidableEq

structure Message where
  header : Header := {}
  questions : List Question := []
  answers : List RR := []
  authority : List RR := []
  additional : List RR := []
  edns : Option EdnsInfo := none
deriving Repr, Inhabited

/-! ### Equality of names -/

theorem Name.beq_iff {a b : Name} : (a == b) = true ↔ a.labels = b.labels := by
  show (a.labels == b.labels) = true ↔ _
  rw [beq_iff_eq]

@[simp] theorem Name.beq_refl (a : Name) : (a == a) = true := Name.beq_iff.mpr rfl

theorem Name.beq_comm {a b : Name} : (a == b) = (b == a) := by
  rw [Bool.eq_iff_iff, Name.beq_iff, Name.beq_iff, eq_comm]

theorem Question.beq_iff {a b : Question} : (a == b) = true ↔
    a.qname.labels = b.qname.labels ∧ a.qtype = b.qtype ∧ a.qclass = b.qclass := by
  show (a.qname == b.qname && a.qtype == b.qtype && a.qclass == b.qclass) = true ↔ _
  simp only [Bool.and_eq_true, Name.beq_iff, beq_iff_eq, and_assoc]

theorem RR.beq_iff {a b : RR} : (a == b) = true ↔ a.name.labels = b.name.labels ∧
    a.type = b.type ∧ a.cls = b.cls ∧ a.ttl = b.ttl ∧ (a.rdata == b.rdata) = true := by
  show (a.name == b.name && a.type == b.type && a.cls == b.cls && a.ttl == b.ttl &&
    a.rdata == b.rdata) = true ↔ _
  simp only [Bool.and_eq_true, Name.beq_iff, beq_iff_eq, and_assoc]

theorem RData.beq_self (r : RData) : (r == r) = true := by
  show RData.beq r r = true
  cases r <;> simp [RData.beq]

@[simp] theorem RR.beq_self (r : RR) : (r == r) = true :=
  RR.beq_iff.mpr ⟨rfl, rfl, rfl, rfl, RData.beq_self _⟩

/-! ### At or below a zone -/

namespace Name

/-- **At or below**: the zone's labels are the last labels of the name. -/
theorem isSubdomainOf_iff {n zone : Name} :
    n.isSubdomainOf zone = true ↔ zone.labels <:+ n.labels := by
  unfold isSubdomainOf
  split_ifs with h
  · simp only [false_iff]
    intro hs
    have := hs.length_le
    omega
  · rw [beq_iff_eq, ← List.reverse_prefix, List.prefix_iff_eq_take, List.length_reverse, eq_comm]

@[simp] theorem isSubdomainOf_self (n : Name) : n.isSubdomainOf n = true :=
  isSubdomainOf_iff.mpr List.suffix_rfl

@[simp] theorem isSubdomainOf_root (n : Name) : n.isSubdomainOf {} = true :=
  isSubdomainOf_iff.mpr (List.nil_suffix)

theorem isSubdomainOf_trans {a b c : Name} (hab : a.isSubdomainOf b = true)
    (hbc : b.isSubdomainOf c = true) : a.isSubdomainOf c = true :=
  isSubdomainOf_iff.mpr ((isSubdomainOf_iff.mp hbc).trans (isSubdomainOf_iff.mp hab))

theorem isSubdomainOf_congr {a b z : Name} (h : (a == b) = true) :
    a.isSubdomainOf z = b.isSubdomainOf z := by
  rw [Bool.eq_iff_iff, isSubdomainOf_iff, isSubdomainOf_iff, beq_iff.mp h]

@[simp] theorem labels_parent (n : Name) : n.parent.labels = n.labels.tail := by
  unfold parent
  split_ifs with h <;> simp [h]

theorem isSubdomainOf_parent (n : Name) : n.isSubdomainOf n.parent = true := by
  rw [isSubdomainOf_iff, labels_parent]
  exact List.tail_suffix _

end Name

end DNSentinel.Types
