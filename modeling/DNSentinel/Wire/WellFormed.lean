import DNSentinel.Types
import Mathlib.Tactic.MkIffOfInductiveProp

/-! # Well-formed messages

What `builder.h` asks of a message (names of 1 to 63 byte labels and at most 255 bytes on the wire,
TXT strings of at most 255 bytes) and what its assertions check, together with what a message read
from the wire has: canonical labels that are the lower case of the original ones, the RDATA
alternative that goes with the record's type and class, no OPT record outside of `edns`, TTLs below
2³¹. `OfType type cls d` says which alternative `read_rdata` produces for a type and a class. -/

namespace DNSentinel.Wire.WellFormed

open DNSentinel.Types

/-- A name as the parser and `Name::from_string` produce it. -/
@[mk_iff]
structure NameWf (n : Name) : Prop where
  label : ∀ l ∈ n.labels, 1 ≤ l.length ∧ l.length ≤ kMaxLabelLength
  wire : n.wireLength ≤ kMaxNameWireLength
  lower : n.labels = n.originalCase.map lowerLabel

theorem NameWf.length_eq {n : Name} (h : NameWf n) : n.originalCase.length = n.labels.length := by
  rw [h.lower, List.length_map]

/-- The types whose RDATA the parser keeps as raw bytes. -/
def RawType (type : RRType) (cls : UInt16) : Prop :=
  ¬ (type = RRType.A ∧ cls = kClassIN) ∧ ¬ (type = RRType.AAAA ∧ cls = kClassIN) ∧
    type ≠ RRType.NS ∧ type ≠ RRType.CNAME ∧ type ≠ RRType.PTR ∧ type ≠ RRType.MX ∧
    type ≠ RRType.SOA ∧ type ≠ RRType.TXT

/-- The RDATA alternative that goes with a type and a class. -/
def OfType (type : RRType) (cls : UInt16) : RData → Prop
  | .a _ => type = RRType.A ∧ cls = kClassIN
  | .aaaa _ => type = RRType.AAAA ∧ cls = kClassIN
  | .ns _ => type = RRType.NS
  | .cname _ => type = RRType.CNAME
  | .ptr _ => type = RRType.PTR
  | .mx _ _ => type = RRType.MX
  | .soa .. => type = RRType.SOA
  | .txt _ => type = RRType.TXT
  | .raw _ => RawType type cls

/-- The names inside RDATA. -/
def rdataNames : RData → List Name
  | .ns n | .cname n | .ptr n | .mx _ n => [n]
  | .soa m r .. => [m, r]
  | _ => []

/-- The bytes RDATA takes without compression. -/
def rdataLength : RData → ℕ
  | .a _ => 4
  | .aaaa _ => 16
  | .ns n | .cname n | .ptr n => n.wireLength
  | .mx _ n => 2 + n.wireLength
  | .soa m r .. => m.wireLength + r.wireLength + 20
  | .txt strings => (strings.map fun s => 1 + s.length).sum
  | .raw data => data.length

/-- Strings of TXT records fit their length byte. -/
def TxtWf : RData → Prop
  | .txt strings => ∀ s ∈ strings, s.length ≤ 255
  | _ => True

@[mk_iff]
structure RdataWf (type : RRType) (cls : UInt16) (d : RData) : Prop where
  ofType : OfType type cls d
  names : ∀ n ∈ rdataNames d, NameWf n
  txt : TxtWf d
  length : rdataLength d ≤ 65535

@[mk_iff]
structure RRWf (rr : RR) : Prop where
  name : NameWf rr.name
  notOpt : rr.type ≠ RRType.OPT
  ttl : rr.ttl.toNat < 2 ^ 31
  rdata : RdataWf rr.type rr.cls rr.rdata

@[mk_iff]
structure MessageWf (m : Message) : Prop where
  opcode : m.header.opcode < 16
  rcode : m.header.rcode < 16
  questions : ∀ q ∈ m.questions, NameWf q.qname
  answers : ∀ rr ∈ m.answers, RRWf rr
  authority : ∀ rr ∈ m.authority, RRWf rr
  additional : ∀ rr ∈ m.additional, RRWf rr

instance (n : Name) : Decidable (NameWf n) := decidable_of_iff _ (nameWf_iff n).symm

instance (type : RRType) (cls : UInt16) (d : RData) : Decidable (RdataWf type cls d) :=
  have : Decidable (OfType type cls d) := by
    cases d <;> unfold OfType <;> (try unfold RawType) <;> infer_instance
  have : Decidable (TxtWf d) := by
    cases d <;> unfold TxtWf <;> infer_instance
  decidable_of_iff _ (rdataWf_iff type cls d).symm

instance (rr : RR) : Decidable (RRWf rr) := decidable_of_iff _ (rRWf_iff rr).symm

instance (m : Message) : Decidable (MessageWf m) := decidable_of_iff _ (messageWf_iff m).symm

theorem wireLength_appendLabel (n : Name) (raw : Label) :
    (n.appendLabel raw).wireLength = n.wireLength + 1 + raw.length := by
  simp [Name.wireLength, Name.appendLabel, lowerLabel]
  omega

theorem nameWf_root : NameWf {} := ⟨by simp, by decide, rfl⟩

/-- Names stay well formed as the parser appends labels. -/
theorem NameWf.appendLabel {n : Name} {raw : Label} (h : NameWf n) (h1 : 1 ≤ raw.length)
    (h63 : raw.length ≤ kMaxLabelLength)
    (hw : n.wireLength + 1 + raw.length ≤ kMaxNameWireLength) : NameWf (n.appendLabel raw) where
  label l hl := by
    simp only [Name.appendLabel, List.mem_append, List.mem_singleton] at hl
    rcases hl with hl | rfl
    · exact h.label l hl
    · simp only [lowerLabel, List.length_map]
      exact ⟨h1, h63⟩
  wire := by rw [wireLength_appendLabel]; exact hw
  lower := by simp [Name.appendLabel, h.lower]

end DNSentinel.Wire.WellFormed
