import DNSentinel.Wire.Edns

/-! # The wire-format builder

`builder.cpp`. A `Writer` holds the bytes written so far and the compression table: canonical wire
form of a name suffix to the offset where it was written. `std::unordered_map` is a list of pairs
whose first match counts; `emplace` is only reached after a failed `find`. -/

namespace DNSentinel.Wire.Builder

open DNSentinel.Types ByteIo Edns

def kHeaderSize : ℕ := 12
def kMaxPointerOffset : ℕ := 0x3FFF
def kMaxTcpMessage : ℕ := 0xFFFF

structure Writer where
  compress : Bool
  out : List UInt8 := []
  suffixes : List (List UInt8 × UInt16) := []

namespace Writer

def size (w : Writer) : ℕ := w.out.length

/-- Append bytes. -/
def push (w : Writer) (bytes : List UInt8) : Writer := { w with out := w.out ++ bytes }

/-- Discard everything written from `mark` on, and the table entries that point there. -/
def rollback (w : Writer) (mark : ℕ) : Writer :=
  { w with
    out := w.out.take mark
    suffixes := w.suffixes.filter fun e => !decide (mark ≤ e.2.toNat) }

end Writer

/-- `keys[i]` for the labels from `i` on. -/
def suffixKey : List Label → List UInt8
  | [] => []
  | l :: ls => UInt8.ofNat l.length :: (l ++ suffixKey ls)

/-- The loop of `Writer::name` over the remaining labels, each with the form it is written in. -/
def nameLoop : List (Label × Label) → Writer → Writer
  | [], w => w.push [0]
  | (label, text) :: rest, w =>
    if w.compress then
      let key := suffixKey (label :: rest.map Prod.fst)
      match w.suffixes.lookup key with
      | some off => w.push (putU16 (0xC000 ||| off))
      | none =>
        let w := if w.out.length ≤ kMaxPointerOffset then
            { w with suffixes := (key, UInt16.ofNat w.out.length) :: w.suffixes } else w
        nameLoop rest (w.push (UInt8.ofNat text.length :: text))
    else nameLoop rest (w.push (UInt8.ofNat text.length :: text))

namespace Writer

/-- Labels are written in original case; suffixes are matched on canonical labels. -/
def name (w : Writer) (n : Name) : Writer := nameLoop (n.labels.zip n.asWritten) w

def question (w : Writer) (q : Question) : Writer :=
  ((w.name q.qname).push (putU16 q.qtype)).push (putU16 q.qclass)

/-- `RDataWriter`. -/
def rdata (w : Writer) : RData → Writer
  | .a addr => w.push (putU32 addr)
  | .aaaa addr => w.push addr.val
  | .ns n | .cname n | .ptr n => w.name n
  | .mx preference exchange => (w.push (putU16 preference)).name exchange
  | .soa m r serial refresh retry expire minimum =>
    ((w.name m).name r).push (putU32 serial ++ putU32 refresh ++ putU32 retry ++ putU32 expire ++
      putU32 minimum)
  | .txt strings => w.push (strings.flatMap fun s => UInt8.ofNat s.length :: s)
  | .raw data => w.push data

def rr (w : Writer) (r : RR) : Writer :=
  let w := (((w.name r.name).push (putU16 r.type)).push (putU16 r.cls)).push (putU32 r.ttl)
  let rdlenAt := w.size
  let w := (w.push (putU16 0)).rdata r.rdata
  let rdlen := sizeSub (sizeSub w.size rdlenAt) 2
  { w with out := storeU16 w.out rdlenAt (UInt16.ofNat rdlen) }

end Writer

def sameRrset (a b : RR) : Bool := a.type == b.type && a.cls == b.cls && a.name == b.name

/-- `b ? v : 0`. -/
def flag (b : Bool) (v : UInt8) : UInt8 := if b then v else 0

/-- Byte 2 of the header: QR, opcode, AA, TC, RD. -/
def flagByte2 (h : Header) : UInt8 :=
  flag h.qr 0x80 ||| ((h.opcode &&& 0x0F) <<< 3) ||| flag h.aa 0x04 ||| flag h.tc 0x02 |||
    flag h.rd 0x01

/-- Byte 3 of the header: RA, Z, AD, CD, rcode. -/
def flagByte3 (h : Header) : UInt8 :=
  flag h.ra 0x80 ||| flag h.ad 0x20 ||| flag h.cd 0x10 ||| (h.rcode &&& 0x0F)

def writeHeader (out : List UInt8) (h : Header) : List UInt8 :=
  let out := storeU16 out 0 h.id
  let out := out.set 2 (flagByte2 h)
  let out := out.set 3 (flagByte3 h)
  let out := storeU16 out 4 h.qdcount
  let out := storeU16 out 6 h.ancount
  let out := storeU16 out 8 h.nscount
  storeU16 out 10 h.arcount

/-- The loop of `build_message` over the questions: the writer, the count and `truncated`. -/
def writeQuestions (limit : ℕ) : List Question → Writer → UInt16 → Writer × UInt16 × Bool
  | [], w, count => (w, count, false)
  | q :: qs, w, count =>
    let w' := w.question q
    if limit < w'.size then (w'.rollback w.size, count, true)
    else writeQuestions limit qs w' (count + 1)

/-- The loop of the lambda `write_section`: whole RRsets until one does not fit; `false` if it
stopped early. The first argument bounds the turns. -/
def writeSectionLoop (limit : ℕ) : ℕ → List RR → Writer → UInt16 → Writer × UInt16 × Bool
  | 0, _, w, count => (w, count, true)
  | _ + 1, [], w, count => (w, count, true)
  | fuel + 1, r :: rest, w, count =>
    let run := r :: rest.takeWhile (sameRrset r)
    let w' := run.foldl Writer.rr w
    if limit < w'.size then (w'.rollback w.size, count, false)
    else
      writeSectionLoop limit fuel (rest.dropWhile (sameRrset r)) w'
        (count + UInt16.ofNat run.length)

/-- `write_section`: at most one turn per record. -/
def writeSection (limit : ℕ) (rrs : List RR) (w : Writer) : Writer × UInt16 × Bool :=
  writeSectionLoop limit (rrs.length + 1) rrs w 0

/-- The sections of a message: the writer, the four counts and `truncated`. -/
def writeSections (m : Message) (limit : ℕ) (w : Writer) :
    Writer × (UInt16 × UInt16 × UInt16 × UInt16) × Bool :=
  let (w, qdcount, truncated) := writeQuestions limit m.questions w 0
  if truncated then (w, (qdcount, 0, 0, 0), true)
  else
    let (w, ancount, complete) := writeSection limit m.answers w
    if !complete then (w, (qdcount, ancount, 0, 0), true)
    else
      let (w, nscount, complete) := writeSection limit m.authority w
      if !complete then (w, (qdcount, ancount, nscount, 0), true)
      else
        -- overflow in the additional section does not set TC
        let (w, arcount, _) := writeSection limit m.additional w
        (w, (qdcount, ancount, nscount, arcount), false)

def buildMessage (m : Message) (maxSize : ℕ) (compress : Bool) : List UInt8 :=
  let w : Writer := { compress, out := List.replicate kHeaderSize 0 }
  let limit := sizeSub maxSize (if m.edns.isSome then kOptRecordSize else 0)
  let (w, (qdcount, ancount, nscount, arcount), truncated) := writeSections m limit w
  let (w, arcount) := match m.edns with
    | some e => (w.push (writeOpt e), arcount + 1)
    | none => (w, arcount)
  writeHeader w.out
    { m.header with qdcount, ancount, nscount, arcount, tc := m.header.tc || truncated }

structure BuildOptions where
  maxSize : UInt16 := 512
  compress : Bool := true

def build (m : Message) (opts : BuildOptions := {}) : List UInt8 :=
  buildMessage m (max opts.maxSize kClassicUdpSize).toNat opts.compress

/-- Build for TCP: a two-byte length before the message. -/
def buildTcp (m : Message) (opts : BuildOptions := {}) : List UInt8 :=
  let out := buildMessage m kMaxTcpMessage opts.compress
  putU16 (UInt16.ofNat out.length) ++ out

/-- Start a response to `query`. -/
def makeResponse (query : Message) (rcode : RCode := RCode.NoError) : Message where
  header :=
    { id := query.header.id, qr := true, opcode := query.header.opcode, rd := query.header.rd
      ra := true, cd := query.header.cd, rcode := rcode &&& 0x0F }
  questions := query.questions
  edns := query.edns.map fun e =>
    { udpPayloadSize := kEdnsUdpPayloadSize, extendedRcode := rcode >>> 4, dnssecOk := e.dnssecOk }

end DNSentinel.Wire.Builder
