import DNSentinel.Wire.Edns

/-! # The wire-format parser

`parser.cpp`, function by function. `pos` is a mutable reference in the source; the readers take it
and return it. The loop of `read_name` carries its locals in `NameState`. -/

namespace DNSentinel.Wire.Parser

open DNSentinel.Types ByteIo Edns

def kHeaderSize : ℕ := 12
def kMinQuestionSize : ℕ := 5
def kMinRRSize : ℕ := 11
def kRRFixedSize : ℕ := 10
def kMaxPointerJumps : ℕ := 128

/-! ### Names -/

/-- The locals of `read_name`. -/
structure NameState where
  name : Name := {}
  pos : ℕ
  cur : ℕ
  segmentStart : ℕ
  wireLen : ℕ := 1
  jumps : ℕ := 0
  jumped : Bool := false

/-- The `while (true)` loop of `read_name`. -/
def readNameLoop (msg : List UInt8) : ℕ → NameState → Result (Name × ℕ)
  | 0, _ => .error .outOfFuel
  | fuel + 1, s =>
    if msg.length ≤ s.cur then fail .bufferTooShort
    else do
      let len ← byteAt msg s.cur
      if len &&& 0xC0 = 0x00 then
        if len = 0 then .ok (s.name, if s.jumped then s.pos else s.cur + 1)
        else if sizeSub (sizeSub msg.length s.cur) 1 < len.toNat then fail .bufferTooShort
        else if kMaxNameWireLength < s.wireLen + 1 + len.toNat then fail .nameTooLong
        else do
          let raw ← slice msg (s.cur + 1) len.toNat
          readNameLoop msg fuel
            { s with
              name := s.name.appendLabel raw
              cur := s.cur + 1 + len.toNat
              wireLen := s.wireLen + 1 + len.toNat }
      else if len &&& 0xC0 = 0xC0 then
        if sizeSub msg.length s.cur < 2 then fail .bufferTooShort
        else do
          let word ← loadU16 msg s.cur
          let target := (word &&& 0x3FFF).toNat
          -- `++jumps` is only evaluated when the first test fails
          if s.segmentStart ≤ target ∨ kMaxPointerJumps < s.jumps + 1 then fail .compressionLoop
          else
            readNameLoop msg fuel
              { s with
                pos := if s.jumped then s.pos else s.cur + 2
                jumped := true
                cur := target
                segmentStart := target
                jumps := s.jumps + 1 }
      else fail .invalidLabelType

/-- More turns than the loop of `read_name` can take: at most one per label and one per jump. -/
def nameFuel : ℕ := kMaxNameWireLength + kMaxPointerJumps + 2

/-- Read a possibly compressed name at `pos`; the new `pos` is past its in-place bytes. -/
def readName (msg : List UInt8) (pos : ℕ) : Result (Name × ℕ) :=
  readNameLoop msg nameFuel { pos := pos, cur := pos, segmentStart := pos }

def readQuestion (msg : List UInt8) (pos : ℕ) : Result (Question × ℕ) := do
  let (qname, pos) ← readName msg pos
  if sizeSub msg.length pos < 4 then fail .bufferTooShort
  else do
    let qtype ← loadU16 msg pos
    let qclass ← loadU16 msg (pos + 2)
    .ok ({ qname, qtype, qclass }, pos + 4)

/-! ### Record data -/

/-- The lambda `name_rdata`: RDATA that is one name, ending at `stop`. -/
def nameRdata (msg : List UInt8) (pos stop : ℕ) (mk : Name → RData) : Result RData := do
  let (n, pos) ← readName msg pos
  if pos ≠ stop then fail .rdataLengthMismatch else .ok (mk n)

/-- The loop over the character-strings of a TXT record. -/
def txtLoop (rdata : List UInt8) : ℕ → ℕ → List (List UInt8) → Result (List (List UInt8))
  | 0, _, _ => .error .outOfFuel
  | fuel + 1, p, strings =>
    if p < rdata.length then do
      let n ← byteAt rdata p
      let p := p + 1
      if sizeSub rdata.length p < n.toNat then fail .malformedRData
      else do
        let s ← slice rdata p n.toNat
        txtLoop rdata fuel (p + n.toNat) (strings ++ [s])
    else .ok strings

def readMx (msg : List UInt8) (pos stop : ℕ) : Result RData := do
  let preference ← loadU16 msg pos
  let (exchange, pos) ← readName msg (pos + 2)
  if pos ≠ stop then fail .rdataLengthMismatch else .ok (.mx preference exchange)

def readSoa (msg : List UInt8) (pos stop : ℕ) : Result RData := do
  let (mname, pos) ← readName msg pos
  let (rname, pos) ← readName msg pos
  if stop < pos ∨ sizeSub stop pos ≠ 20 then fail .rdataLengthMismatch
  else do
    let serial ← loadU32 msg pos
    let refresh ← loadU32 msg (pos + 4)
    let retry ← loadU32 msg (pos + 8)
    let expire ← loadU32 msg (pos + 12)
    let minimum ← loadU32 msg (pos + 16)
    .ok (.soa mname rname serial refresh retry expire minimum)

/-- Sixteen bytes as the address of a AAAA record. -/
def aaaaOf (rdata : List UInt8) : Result RData :=
  if h : rdata.length = 16 then .ok (.aaaa ⟨rdata, h⟩) else .error .outOfBounds

/-- Decode the RDATA in `msg[pos, pos + rdlen)`. Names are read against the whole message. -/
def readRdata (msg : List UInt8) (pos : ℕ) (rdlen : UInt16) (type : RRType) (cls : UInt16) :
    Result RData := do
  let stop := pos + rdlen.toNat
  let rdata ← slice msg pos rdlen.toNat
  if type = RRType.A ∧ cls = kClassIN then
    if rdlen ≠ 4 then fail .rdataLengthMismatch
    else do
      let addr ← loadU32 rdata 0
      .ok (.a addr)
  else if type = RRType.AAAA ∧ cls = kClassIN then
    if rdlen ≠ 16 then fail .rdataLengthMismatch else aaaaOf rdata
  else if type = RRType.NS then nameRdata msg pos stop .ns
  else if type = RRType.CNAME then nameRdata msg pos stop .cname
  else if type = RRType.PTR then nameRdata msg pos stop .ptr
  else if type = RRType.MX then
    if rdlen < 2 then fail .rdataLengthMismatch else readMx msg pos stop
  else if type = RRType.SOA then readSoa msg pos stop
  else if type = RRType.TXT then do
    let strings ← txtLoop rdata (rdata.length + 1) 0 []
    .ok (.txt strings)
  else .ok (.raw rdata)

/-! ### Sections and messages -/

/-- RFC 2181 §8: a TTL with the top bit set is treated as zero. -/
def clearTopBit (ttl : UInt32) : UInt32 := if ttl &&& 0x80000000 ≠ 0 then 0 else ttl

/-- One turn of the loop of `read_section`: the new position, the record if it is not the OPT
record, and the EDNS information so far. -/
def readRecord (msg : List UInt8) (isAdditional : Bool) (pos : ℕ) (edns : Option EdnsInfo) :
    Result (ℕ × Option RR × Option EdnsInfo) := do
  let (owner, pos) ← readName msg pos
  if sizeSub msg.length pos < kRRFixedSize then fail .bufferTooShort
  else do
    let type ← loadU16 msg pos
    let cls ← loadU16 msg (pos + 2)
    let ttl ← loadU32 msg (pos + 4)
    let rdlen ← loadU16 msg (pos + 8)
    let pos := pos + kRRFixedSize
    if sizeSub msg.length pos < rdlen.toNat then fail .bufferTooShort
    else if type = RRType.OPT then
      if !isAdditional || edns.isSome || owner.labelCount != 0 then fail .invalidOpt
      else do
        let rdata ← slice msg pos rdlen.toNat
        let info ← parseOpt cls ttl rdata
        .ok (pos + rdlen.toNat, none, some info)
    else do
      let rdata ← readRdata msg pos rdlen type cls
      .ok (pos + rdlen.toNat, some { name := owner, type, cls, ttl := clearTopBit ttl, rdata }, edns)

/-- `read_section`: parse `count` records after those of `out`. -/
def readSection (msg : List UInt8) (isAdditional : Bool) :
    ℕ → ℕ → List RR → Option EdnsInfo → Result (ℕ × List RR × Option EdnsInfo)
  | 0, pos, out, edns => .ok (pos, out, edns)
  | count + 1, pos, out, edns => do
    let (pos, rr, edns) ← readRecord msg isAdditional pos edns
    readSection msg isAdditional count pos (out ++ rr.toList) edns

/-- The loop of `parse` over the questions. -/
def readQuestions (msg : List UInt8) : ℕ → ℕ → List Question → Result (ℕ × List Question)
  | 0, pos, out => .ok (pos, out)
  | count + 1, pos, out => do
    let (q, pos) ← readQuestion msg pos
    readQuestions msg count pos (out ++ [q])

def parseHeader (data : List UInt8) : Result Header :=
  if data.length < kHeaderSize then fail .bufferTooShort
  else do
    let b2 ← byteAt data 2
    let b3 ← byteAt data 3
    let id ← loadU16 data 0
    let qdcount ← loadU16 data 4
    let ancount ← loadU16 data 6
    let nscount ← loadU16 data 8
    let arcount ← loadU16 data 10
    .ok { id, qdcount, ancount, nscount, arcount
          qr := b2 &&& 0x80 != 0
          opcode := (b2 >>> 3) &&& 0x0F
          aa := b2 &&& 0x04 != 0
          tc := b2 &&& 0x02 != 0
          rd := b2 &&& 0x01 != 0
          ra := b3 &&& 0x80 != 0
          ad := b3 &&& 0x20 != 0
          cd := b3 &&& 0x10 != 0
          rcode := b3 &&& 0x0F }

/-- The bytes the records a header announces take at least. -/
def minNeeded (h : Header) : ℕ :=
  h.qdcount.toNat * kMinQuestionSize +
    (h.ancount.toNat + h.nscount.toNat + h.arcount.toNat) * kMinRRSize

/-- Parse a complete DNS message. -/
def parse (data : List UInt8) : Result Message := do
  let h ← parseHeader data
  if sizeSub data.length kHeaderSize < minNeeded h then fail .sectionOverflow
  else do
    let (pos, questions) ← readQuestions data h.qdcount.toNat kHeaderSize []
    let (pos, answers, edns) ← readSection data false h.ancount.toNat pos [] none
    let (pos, authority, edns) ← readSection data false h.nscount.toNat pos [] edns
    let (_, additional, edns) ← readSection data true h.arcount.toNat pos [] edns
    .ok { header := h, questions, answers, authority, additional, edns }

end DNSentinel.Wire.Parser
