import DNSentinel.Resolver.Selection
import DNSentinel.Store.Model

/-! # Resolutions

The data of `recursive_resolver.cpp`, and its functions that only look at records: what a response
says, which records are believed, the outcome of a resolution. A task's `upstream`, `child`,
`start_timer` and `deadline` are 0 in the source when there is none; here they are `Option`s. -/

namespace DNSentinel.Resolver.Data

open DNSentinel.Types Store.Model Selection

def kTypeA : UInt16 := RRType.A
def kTypeNS : UInt16 := RRType.NS
def kTypeCNAME : UInt16 := RRType.CNAME

/-- Cache slot for NXDOMAIN: the reserved type 0. -/
def kNxdomainType : UInt16 := 0

def kMaxSubqueryDepth : ℕ := 4
def kMaxRetryRounds : UInt8 := 2

/-! ### Configuration -/

structure StubZone where
  zone : Name
  servers : List Address

structure RootHints where
  ns : List RR
  addresses : List RR

/-- `ResolverConfig`, the fields the resolver reads, and the root hints. -/
structure Config where
  use0x20 : Bool := true
  ednsBuffer : UInt16 := 1232
  maxUpstreamQueries : UInt32 := 30
  maxReferralDepth : UInt16 := 16
  maxCnameChain : UInt8 := 8
  maxGluelessNs : UInt8 := 5
  queryTimeoutMs : UInt32 := 800
  maxQueryTimeoutMs : UInt32 := 3000
  overallDeadlineMs : UInt32 := 5000
  exploreOneIn : UInt32 := 20
  spoofTcpThreshold : UInt32 := 5
  stubZones : List StubZone := []
  hints : RootHints

/-- `stubs.find(z)`: the servers of all stub zones of that name. -/
def Config.stub (cfg : Config) (z : Name) : Option (List Address) :=
  match cfg.stubZones.filter fun s => s.zone == z with
  | [] => none
  | stubs => some (stubs.flatMap StubZone.servers)

/-! ### Outcomes -/

inductive ResolveError where
  | timeout
  | servFail
  | maxQueriesExceeded
  | maxDepthExceeded
  | maxCnameChainExceeded
  | allServersFailed
  | networkError
deriving Repr, DecidableEq

structure ResolveResult where
  response : Message
  upstreamQueriesUsed : UInt32 := 0
  latencyUs : UInt32 := 0
  coalesced : Bool := false

abbrev Outcome := Except ResolveError ResolveResult

inductive UpstreamError where
  | timeout
  | networkError
  | caseMismatch
  | spoofSuspected
deriving Repr, DecidableEq

inductive UpstreamTransport where
  | udp
  | tcp
deriving Repr, DecidableEq

/-! ### Tasks -/

/-- What a task calls when it is done: a client's callback, or `on_child_done` of its parent. -/
inductive Done where
  | callback (cb : ℕ)
  | onChildDone (parent : ℕ)
deriving Repr, DecidableEq

/-- A client that asked a question already being resolved. -/
structure Waiter where
  question : Question
  asked : ℕ
  done : ℕ

structure Task where
  question : Question
  qname : Name
  chain : List RR := []
  cnameHops : UInt8 := 0
  ancestry : List Question := []
  zone : Name := {}
  servers : List Address := []
  unresolved : List Name := []
  tried : List Address := []
  timedOut : List Address := []
  retryRounds : UInt8 := 0
  asked : Address := 0
  overTcp : Bool := false
  sent0x20 : Bool := false
  gluelessLookups : UInt8 := 0
  referrals : UInt16 := 0
  timeouts : UInt32 := 0
  sentAt : ℕ := 0
  /-- the `Budget`, named after the client task it was made for -/
  budget : ℕ
  started : ℕ
  upstream : Option ℕ := none
  child : Option ℕ := none
  startTimer : Option ℕ := none
  deadline : Option ℕ := none
  done : Done
  client : Bool := false
  joiners : List Waiter := []
  /-- how many zone cuts have been made the current one; not in the source -/
  visits : ℕ := 0

/-- What a task is resolving now. -/
def Task.target (t : Task) : Question := ⟨t.qname, t.question.qtype, kClassIN⟩

/-! ### What a response says -/

def collect (rrs : List RR) (name : Name) (type : UInt16) : List RR :=
  rrs.filter fun r => r.cls == kClassIN && r.type == type && r.name == name

def minTtl (rrs : List RR) : UInt32 :=
  if rrs.isEmpty then 0 else rrs.foldl (fun ttl r => min ttl r.ttl) 0xFFFFFFFF

def isSoa : RData → Bool
  | .soa .. => true
  | _ => false

def isNs : RData → Bool
  | .ns _ => true
  | _ => false

/-- The SOA proving a negative answer: owned by an ancestor of `qname`. -/
def findSoa (authority : List RR) (qname : Name) : Option RR :=
  authority.find? fun r => isSoa r.rdata && qname.isSubdomainOf r.name

/-- RFC 2308 §5: a negative answer lives for min(SOA TTL, SOA MINIMUM). -/
def negativeTtl (soa : RR) : UInt32 :=
  match soa.rdata with
  | .soa _ _ _ _ _ _ minimum => min soa.ttl minimum
  | _ => soa.ttl

/-- The NS records of a referral: all NS records sharing the first one's owner. -/
def referralNs (authority : List RR) : List RR :=
  authority.foldl (fun ns r =>
    if r.cls != kClassIN || !isNs r.rdata then ns
    else match ns with
      | [] => [r]
      | first :: _ => if r.name == first.name then ns ++ [r] else ns) []

def ipv4Addresses (rrs : List RR) : List Address :=
  rrs.filterMap fun r => match r.rdata with
    | .a addr => some addr
    | _ => none

/-- `filter_to_bailiwick`. -/
def filterToBailiwick (response : Message) (zone : Name) : Message :=
  let inside (rrs : List RR) := rrs.filter fun r => r.name.isSubdomainOf zone
  { response with
    answers := inside response.answers
    authority := inside response.authority
    additional := inside response.additional }

/-- Put back the case the name was asked in. -/
def restoreCase (response : Message) (asked : Name) : Message :=
  let restore (r : RR) : RR :=
    if r.name == asked then { r with name := { r.name with originalCase := asked.originalCase } } else r
  { response with
    answers := response.answers.map restore
    authority := response.authority.map restore
    additional := response.additional.map restore }

/-! ### Letter case -/

def isLetter (c : UInt8) : Bool := (97 ≤ c && c ≤ 122) || (65 ≤ c && c ≤ 90)

/-- The locals of `randomize_case`: random bits, how many are left, and the draws made. -/
structure CaseBits where
  bits : ℕ := 0
  left : ℕ := 0
  draws : ℕ

/-- One letter of the loop of `randomize_case`. -/
def randomizeByte (env : Random) (s : CaseBits) (c : UInt8) : CaseBits × UInt8 :=
  if !isLetter c then (s, c)
  else
    let s := if s.left = 0 then
        { bits := env s.draws % 2 ^ 32, left := 32, draws := s.draws + 1 } else s
    ({ s with bits := s.bits / 2, left := s.left - 1 },
      if s.bits % 2 = 1 then c - 97 + 65 else c)

def randomizeLabel (env : Random) : CaseBits → Label → CaseBits × Label
  | s, [] => (s, [])
  | s, c :: cs =>
    let (s, c) := randomizeByte env s c
    let (s, cs) := randomizeLabel env s cs
    (s, c :: cs)

def randomizeLabels (env : Random) : CaseBits → List Label → CaseBits × List Label
  | s, [] => (s, [])
  | s, l :: ls =>
    let (s, l) := randomizeLabel env s l
    let (s, ls) := randomizeLabels env s ls
    (s, l :: ls)

/-- `randomize_case`, and the draws made. -/
def randomizeCase (env : Random) (draws : ℕ) (name : Name) : Name × ℕ :=
  let (s, labels) := randomizeLabels env { draws } name.labels
  ({ name with originalCase := labels }, s.draws)

def sameCase (a b : Name) : Bool := a.asWritten == b.asWritten

/-! ### The outcome -/

def outcome (t : Task) (rcode : RCode) (answers authority : List RR) : Outcome :=
  .ok { response :=
    { header := { qr := true, rcode }
      questions := [t.question]
      answers := t.chain ++ answers
      authority } }

/-- `elapsed_us`. -/
def elapsedUs (since now : ℕ) : UInt32 := UInt32.ofNat ((now - since) / 1000)

end DNSentinel.Resolver.Data
