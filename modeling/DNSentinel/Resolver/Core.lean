import DNSentinel.Resolver.Data

/-! # Resolution steps

The functions of `recursive_resolver.cpp` that work on one task: `step`, `start_at_closest_zone`,
`next_server`, `handle_response` and what they call. They read and change the task and what all
resolutions share (`Shared`), nothing else.

By the source's convention `finish()`, and every function that may call it, is the last thing its
caller does. Here such a last call is returned as a value, `Next`: finish the task, send a query, or
start a sub-query. The loops that follow CNAMEs take `fuel` and return `none` when it runs out: a
configured limit of 255 is never exceeded by an 8-bit counter, so they need not end. -/

namespace DNSentinel.Resolver.Core

open DNSentinel.Types Store.Model Selection Data

/-- The response being handled, and what was asked of whom: a record of where cached data is
from. -/
structure Source where
  query : Question
  zone : Name
  server : Address
  servers : List Address
  response : Message

/-- An insertion into the cache, recorded with its time and the cache it found. -/
structure Insert where
  source : Source
  key : CacheKey
  records : List RR
  trust : TrustRank
  ttl : UInt32
  negative : Bool
  time : ℕ
  before : Cache

/-- What `step` uses cached records for. -/
inductive Use where
  | nxdomain
  | nodata
  | answer
  | cname
deriving Repr, DecidableEq

/-- Cached records that `step` used, recorded with the time and the insertions made before. -/
structure Serve where
  use : Use
  key : CacheKey
  records : List RR
  time : ℕ
  before : List Insert

/-- What all resolutions share. `inserts` records the insertions made and `served` what `step` used
from the cache, newest first. -/
structure Shared where
  now : ℕ := 0
  draws : ℕ := 0
  cache : Cache
  selection : ServerSelection
  no0x20 : List Address := []
  inserts : List Insert := []
  served : List Serve := []

/-- The last call of a step. -/
inductive Next where
  | finish (result : Outcome)
  | sendQuery (address : Address) (transport : UpstreamTransport)
  | spawn (q : Question) (ancestry : List Question)

/-- How a step ends: the shared state, the task, and the last call. -/
abbrev Turn := Shared × Task × Next

variable (cfg : Config) (env : Random)

namespace Shared

def lookup (sh : Shared) (key : CacheKey) : Option CacheEntry × Shared :=
  let (entry, cache) := sh.cache.lookup sh.now key
  (entry, { sh with cache })

def insert (sh : Shared) (source : Source) (key : CacheKey) (records : List RR) (trust : TrustRank)
    (ttl : UInt32) (negative : Bool := false) : Shared :=
  { sh with
    cache := sh.cache.insert sh.now key records trust ttl negative
    inserts := ⟨source, key, records, trust, ttl, negative, sh.now, sh.cache⟩ :: sh.inserts }

def serve (sh : Shared) (use : Use) (key : CacheKey) (records : List RR) : Shared :=
  { sh with served := ⟨use, key, records, sh.now, sh.inserts⟩ :: sh.served }

end Shared

/-! ### Zones and servers -/

/-- `none` is `false`: no CNAME data, or the limit is exceeded. -/
def followCname (t : Task) (cname : RR) : Option Task :=
  match cname.rdata with
  | .cname target =>
    let hops := t.cnameHops + 1
    if cfg.maxCnameChain < hops then none
    else some { t with cnameHops := hops, chain := t.chain ++ [cname], qname := target }
  | _ => none

def addServer (t : Task) (address : Address) : Task :=
  if address ∈ t.servers then t else { t with servers := t.servers ++ [address] }

/-- Make `zone` the current zone cut, with no servers known yet. -/
def resetZone (t : Task) (zone : Name) : Task :=
  { t with
    zone, servers := [], unresolved := [], tried := [], timedOut := []
    retryRounds := 0, gluelessLookups := 0, timeouts := 0
    visits := t.visits + 1 }

/-- The addresses of a name server, from `glue` or the cache. -/
def serverAddresses (sh : Shared) (glue : List RR) (nsdname : Name) : List Address × Shared :=
  let addresses := ipv4Addresses (collect glue nsdname kTypeA)
  if !addresses.isEmpty then (addresses, sh)
  else
    match sh.lookup ⟨nsdname, kTypeA, kClassIN⟩ with
    | (some e, sh) => (if e.isNegative then [] else ipv4Addresses e.records, sh)
    | (none, sh) => ([], sh)

/-- The loop of `enter_zone` over the NS records. -/
def enterZoneLoop (glue : List RR) : List RR → Shared → Task → Shared × Task
  | [], sh, t => (sh, t)
  | r :: rest, sh, t =>
    match r.rdata with
    | .ns nsdname =>
      let (addresses, sh) := serverAddresses sh glue nsdname
      let t := if addresses.isEmpty then { t with unresolved := t.unresolved ++ [nsdname] } else t
      enterZoneLoop glue rest sh (addresses.foldl addServer t)
    | _ => enterZoneLoop glue rest sh t

/-- Make `zone`, served by `nsRecords`, the current zone cut. -/
def enterZone (sh : Shared) (t : Task) (zone : Name) (nsRecords : List RR) (glue : List RR := []) :
    Shared × Task :=
  let (sh, t) := enterZoneLoop glue nsRecords sh (resetZone t zone)
  if t.zone.labelCount = 0 then (sh, (ipv4Addresses cfg.hints.addresses).foldl addServer t)
  else (sh, t)

/-- One turn of the loop of `start_at_closest_zone`: the zone cut at `z`, if there is one. -/
def zoneCutAt (sh : Shared) (t : Task) (z : Name) : Shared × Option Task :=
  match cfg.stub z with
  | some servers => (sh, some (servers.foldl addServer (resetZone t z)))
  | none =>
    match sh.lookup ⟨z, kTypeNS, kClassIN⟩ with
    | (some e, sh) =>
      if !e.isNegative && !e.records.isEmpty then
        let (sh, t) := enterZone cfg sh t z e.records
        (sh, some t)
      else (sh, none)
    | (none, sh) => (sh, none)

/-- The loop of `start_at_closest_zone`, up to the root; at most one turn per label and one more. -/
def closestZoneLoop : ℕ → Shared → Task → Name → Shared × Task
  | 0, sh, t, _ => enterZone cfg sh t {} cfg.hints.ns
  | fuel + 1, sh, t, z =>
    match zoneCutAt cfg sh t z with
    | (sh, some t) => (sh, t)
    | (sh, none) =>
      if z.labelCount = 0 then enterZone cfg sh t {} cfg.hints.ns
      else closestZoneLoop fuel sh t z.parent

/-- The deepest ancestor of `t.qname` that is a stub zone or has cached NS records, else the
root. -/
def startAtClosestZone (sh : Shared) (t : Task) : Shared × Task :=
  closestZoneLoop cfg (t.qname.labelCount + 1) sh t t.qname

/-! ### The next server -/

def wouldCycle (t : Task) (q : Question) : Bool :=
  (q.qname == t.qname && q.qtype == t.question.qtype) || t.ancestry.any fun a => a == q

/-- The loop of `next_server` over the name servers that came without glue: the sub-query to start,
with its ancestry. -/
def gluelessLoop : List Name → Task → Task × Option (Question × List Question)
  | [], t => ({ t with unresolved := [] }, none)
  | name :: rest, t =>
    if t.gluelessLookups < cfg.maxGluelessNs then
      let q : Question := ⟨name, kTypeA, kClassIN⟩
      let t := { t with unresolved := rest }
      if wouldCycle t q || decide (kMaxSubqueryDepth ≤ t.ancestry.length) then gluelessLoop rest t
      else
        ({ t with gluelessLookups := t.gluelessLookups + 1 },
          some (q, t.ancestry ++ [⟨t.qname, t.question.qtype, kClassIN⟩]))
    else ({ t with unresolved := name :: rest }, none)

/-- `next_server`. It calls itself for another round of the servers that timed out, at most
`kMaxRetryRounds` times. -/
def nextServerLoop : ℕ → Shared → Task → Turn
  | 0, sh, t => (sh, t, .finish (.error .allServersFailed))
  | rounds + 1, sh, t =>
    let untried := t.servers.filter fun s => !t.tried.contains s
    if !untried.isEmpty then
      let (address, draws) := sh.selection.pick env sh.draws sh.now untried
      ({ sh with draws }, t, .sendQuery address .udp)
    else
      match gluelessLoop cfg t.unresolved t with
      | (t, some (q, ancestry)) => (sh, t, .spawn q ancestry)
      | (t, none) =>
        if !t.timedOut.isEmpty && decide (t.retryRounds < kMaxRetryRounds) then
          nextServerLoop rounds sh
            { t with
              retryRounds := t.retryRounds + 1
              tried := t.tried.filter fun s => !t.timedOut.contains s
              timedOut := [] }
        else (sh, t, .finish (.error .allServersFailed))

def nextServer (sh : Shared) (t : Task) : Turn :=
  nextServerLoop cfg env (kMaxRetryRounds.toNat + 1) sh t

/-! ### From the cache -/

/-- The end of `step`: go to the closest zone cut and ask there. -/
def askClosestZone (sh : Shared) (t : Task) : Turn :=
  let (sh, t) := startAtClosestZone cfg sh t
  nextServer cfg env sh t

/-- The CNAME that `step` may follow: an authoritative one. -/
def usableCname : Option CacheEntry → Option RR
  | some e => if e.isNegative || e.trust != .answer then none else e.records.head?
  | none => none

/-- The loop of `step`: answer from the cache, following cached CNAMEs. -/
def stepLoop : ℕ → Shared → Task → Option Turn
  | 0, _, _ => none
  | fuel + 1, sh, t =>
    let qtype := t.question.qtype
    let denied : CacheKey := ⟨t.qname, kNxdomainType, kClassIN⟩
    let asked : CacheKey := ⟨t.qname, qtype, kClassIN⟩
    let aliased : CacheKey := ⟨t.qname, kTypeCNAME, kClassIN⟩
    match sh.lookup denied with
    | (some nx, sh) =>
      some (sh.serve .nxdomain denied nx.records, t,
        .finish (outcome t RCode.NXDomain [] nx.records))
    | (none, sh) =>
      let (hit, sh) := sh.lookup asked
      match hit.filter fun e => e.isNegative || e.trust == .answer with
      | some e =>
        if e.isNegative then
          some (sh.serve .nodata asked e.records, t, .finish (outcome t RCode.NoError [] e.records))
        else
          some (sh.serve .answer asked e.records, t, .finish (outcome t RCode.NoError e.records []))
      | none =>
        if qtype = kTypeCNAME then some (askClosestZone cfg env sh t)
        else
          let (cname, sh) := sh.lookup aliased
          match usableCname cname with
          | none => some (askClosestZone cfg env sh t)
          | some r =>
            match followCname cfg t r with
            | none => some (sh, t, .finish (.error .maxCnameChainExceeded))
            | some t => stepLoop fuel (sh.serve .cname aliased [r]) t

/-- (Re)start resolving `t.qname`. -/
def step (fuel : ℕ) (sh : Shared) (t : Task) : Option Turn :=
  if t.question.qclass ≠ kClassIN then some (sh, t, .finish (.error .servFail))
  else stepLoop cfg env fuel sh t

/-! ### A response -/

/-- Tell server selection how the server just asked did. -/
def rate (sh : Shared) (t : Task) (usable : Bool) (rtt : ℕ) : Shared :=
  { sh with
    selection :=
      if usable then sh.selection.recordAnswer sh.now t.asked (if t.overTcp then none else some rtt)
      else sh.selection.recordUnusable sh.now t.asked }

/-- Cache the addresses a response gave for these name servers at glue rank. -/
def cacheGlue (source : Source) (additional : List RR) : List RR → Shared → Shared
  | [], sh => sh
  | r :: rest, sh =>
    match r.rdata with
    | .ns nsdname =>
      let glue := collect additional nsdname kTypeA
      let sh := if glue.isEmpty then sh
        else sh.insert source ⟨nsdname, kTypeA, kClassIN⟩ glue .glue (minTtl glue)
      cacheGlue source additional rest sh
    | _ => cacheGlue source additional rest sh

/-- The loop over the answer section: follow CNAMEs as far as this response goes. It ends with a
last call, or with whether a CNAME was followed. -/
def answerLoop (source : Source) (response : Message) (rank : TrustRank) :
    ℕ → Bool → Shared → Task → Option (Shared × Task × (Next ⊕ Bool))
  | 0, _, _, _ => none
  | fuel + 1, followed, sh, t =>
    let qtype := t.question.qtype
    let rrset := collect response.answers t.qname qtype
    if !rrset.isEmpty then
      let sh := sh.insert source ⟨t.qname, qtype, kClassIN⟩ rrset rank (minTtl rrset)
      let sh := if qtype = kTypeNS then cacheGlue source response.additional rrset sh else sh
      some (sh, t, .inl (.finish (outcome t RCode.NoError rrset [])))
    else if qtype = kTypeCNAME then some (sh, t, .inr followed)
    else
      match collect response.answers t.qname kTypeCNAME with
      | [] => some (sh, t, .inr followed)
      | cname :: _ =>
        let sh := sh.insert source ⟨t.qname, kTypeCNAME, kClassIN⟩ [cname] rank cname.ttl
        match followCname cfg t cname with
        | none => some (sh, t, .inl (.finish (.error .maxCnameChainExceeded)))
        | some t => answerLoop source response rank fuel true sh t

/-- What `handle_response` does when no CNAME was followed and nothing answered: NXDOMAIN, a
referral, NODATA, or nothing usable. -/
def handleNegative (source : Source) (response : Message) (sh : Shared) (t : Task) : Turn :=
  let soa := findSoa response.authority t.qname
  let proof := soa.toList
  let ns := if response.header.aa then [] else referralNs response.authority
  if response.header.rcode = RCode.NXDomain then
    let sh := match soa with
      | some r => sh.insert source ⟨t.qname, kNxdomainType, kClassIN⟩ proof .authority (negativeTtl r) true
      | none => sh
    (sh, t, .finish (outcome t RCode.NXDomain [] proof))
  else
    match ns with
    | first :: _ =>
      if !(decide (t.zone.labelCount < first.name.labelCount) && t.qname.isSubdomainOf first.name) then
        nextServer cfg env sh t
      else
        let t := { t with referrals := t.referrals + 1 }
        if cfg.maxReferralDepth < t.referrals then (sh, t, .finish (.error .maxDepthExceeded))
        else
          let sh := sh.insert source ⟨first.name, kTypeNS, kClassIN⟩ ns .authority (minTtl ns)
          let sh := cacheGlue source response.additional ns sh
          let (sh, t) := enterZone cfg sh t first.name ns response.additional
          nextServer cfg env sh t
    | [] =>
      if response.header.aa || soa.isSome then
        let sh := match soa with
          | some r => sh.insert source ⟨t.qname, t.question.qtype, kClassIN⟩ proof .authority
              (negativeTtl r) true
          | none => sh
        (sh, t, .finish (outcome t RCode.NoError [] proof))
      else nextServer cfg env sh t

/-- Whether the server just asked was of use. -/
def usable (response : Message) (t : Task) : Bool :=
  let qtype := t.question.qtype
  let answered := !(collect response.answers t.qname qtype).isEmpty ||
    (qtype != kTypeCNAME && !(collect response.answers t.qname kTypeCNAME).isEmpty)
  let soa := findSoa response.authority t.qname
  let ns := if response.header.aa then [] else referralNs response.authority
  let downward := match ns with
    | first :: _ => decide (t.zone.labelCount < first.name.labelCount) && t.qname.isSubdomainOf first.name
    | [] => false
  answered || response.header.rcode == RCode.NXDomain ||
    (if ns.isEmpty then response.header.aa || soa.isSome else downward)

/-- `handle_response` after the bailiwick filter. -/
def handleFiltered (fuel : ℕ) (source : Source) (response : Message) (sh : Shared) (t : Task)
    (rtt : ℕ) : Option Turn := do
  let rank : TrustRank := if response.header.aa then .answer else .authority
  let sh := rate sh t (usable response t) rtt
  match ← answerLoop cfg source response rank fuel false sh t with
  | (sh, t, .inl next) => some (sh, t, next)
  | (sh, t, .inr true) => step cfg env fuel sh t
  | (sh, t, .inr false) => some (handleNegative cfg env source response sh t)

def handleResponse (fuel : ℕ) (sh : Shared) (t : Task) (received : Message) (rtt : ℕ) :
    Option Turn :=
  let source : Source := ⟨t.target, t.zone, t.asked, t.servers, received⟩
  let response := if t.sent0x20 then restoreCase received t.qname else received
  if response.header.tc then
    let sh := rate sh t (!t.overTcp) rtt
    if t.overTcp then some (nextServer cfg env sh t)
    else some (sh, t, .sendQuery t.asked .tcp)
  else if response.header.rcode ≠ RCode.NoError ∧ response.header.rcode ≠ RCode.NXDomain then
    some (nextServer cfg env (rate sh t false rtt) t)
  else
    handleFiltered cfg env fuel source (filterToBailiwick response t.zone) sh t rtt

/-- `on_response`, up to its last call. -/
def onResponse (fuel : ℕ) (sh : Shared) (t : Task) (response : Except UpstreamError Message) :
    Option Turn :=
  match response with
  | .error .spoofSuspected => some (sh, t, .sendQuery t.asked .tcp)
  | .error .caseMismatch =>
    some ({ sh with no0x20 := t.asked :: sh.no0x20 },
      { t with tried := t.tried.filter fun s => s != t.asked }, .sendQuery t.asked .udp)
  | .error e =>
    let sh := { sh with selection := sh.selection.recordFailure sh.now t.asked }
    let t := if e = .timeout then
        { t with timeouts := t.timeouts + 1, timedOut := t.timedOut ++ [t.asked] } else t
    some (nextServer cfg env sh t)
  | .ok message => handleResponse cfg env fuel sh t message ((sh.now - t.sentAt) / 1000)

/-- `on_child_done`, up to its last call. -/
def onChildDone (sh : Shared) (t : Task) (child : Outcome) : Turn :=
  let t := match child with
    | .ok r => (ipv4Addresses r.response.answers).foldl addServer t
    | .error _ => t
  nextServer cfg env sh t

end DNSentinel.Resolver.Core
