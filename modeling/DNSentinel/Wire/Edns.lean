import DNSentinel.Wire.ByteIo

/-! # EDNS0

`edns.cpp`: the OPT pseudo-record and the size limit of UDP responses. -/

namespace DNSentinel.Wire.Edns

open DNSentinel.Types ByteIo

def kEdnsUdpPayloadSize : UInt16 := 1232
def kClassicUdpSize : UInt16 := 512

/-- The size of the record `writeOpt` emits. -/
def kOptRecordSize : ℕ := 11

/-- The loop of `parse_opt` over the options `{code, length, data}`. -/
def parseOptLoop (rdata : List UInt8) : ℕ → ℕ → Result Unit
  | 0, _ => .error .outOfFuel
  | fuel + 1, pos =>
    if pos < rdata.length then
      if sizeSub rdata.length pos < 4 then fail .malformedRData
      else do
        let optLen ← loadU16 rdata (pos + 2)
        let pos := pos + 4
        if sizeSub rdata.length pos < optLen.toNat then fail .malformedRData
        else parseOptLoop rdata fuel (pos + optLen.toNat)
    else .ok ()

/-- Decode an OPT record's fields. The options are checked for structure and not kept. -/
def parseOpt (cls : UInt16) (ttl : UInt32) (rdata : List UInt8) : Result EdnsInfo := do
  parseOptLoop rdata (rdata.length + 1) 0
  .ok { udpPayloadSize := cls
        extendedRcode := (ttl >>> 24).toUInt8
        version := (ttl >>> 16).toUInt8
        dnssecOk := ttl &&& 0x8000 != 0 }

/-- The TTL field of the OPT record for `edns`. -/
def optTtl (edns : EdnsInfo) : UInt32 :=
  (edns.extendedRcode.toUInt32 <<< 24) ||| (edns.version.toUInt32 <<< 16) |||
    (if edns.dnssecOk then 0x8000 else 0)

/-- The bytes `write_opt` appends. -/
def writeOpt (edns : EdnsInfo) : List UInt8 :=
  0 :: putU16 RRType.OPT ++ putU16 edns.udpPayloadSize ++ putU32 (optTtl edns) ++ putU16 0

@[simp] theorem length_writeOpt (edns : EdnsInfo) : (writeOpt edns).length = kOptRecordSize := rfl

/-- Largest UDP response for a client whose query carried `clientEdns`. -/
def maxUdpResponseSize (clientEdns : Option EdnsInfo) (ourLimit : UInt16 := kEdnsUdpPayloadSize) :
    UInt16 :=
  match clientEdns with
  | none => kClassicUdpSize
  | some e =>
    let upper := max ourLimit kClassicUdpSize
    -- std::clamp(v, lo, hi)
    if e.udpPayloadSize < kClassicUdpSize then kClassicUdpSize
    else if upper < e.udpPayloadSize then upper
    else e.udpPayloadSize

end DNSentinel.Wire.Edns
