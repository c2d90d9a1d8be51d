import DNSentinel.Policy.Lists
import DNSentinel.Policy.RateLimits
import DNSentinel.Resolver.Data
import DNSentinel.Wire.Builder

/-! # The query processor

`query_processor.cpp`. A query is dropped, answered at once, or resolved (`Decision`); `answer` is the
callback that `handle` gives to `resolve()`. `send` is the way out of a response: over UDP it passes
response rate limiting. What the log hears of is returned with each answer. -/

namespace DNSentinel.Server.Processor

open DNSentinel.Types Wire.Builder Policy.Addresses Policy.RateLimits Policy.Lists Resolver.Data

def kTypeOPT : UInt16 := RRType.OPT
def kTypeIXFR : UInt16 := 251
def kTypeAXFR : UInt16 := 252
def kTypeANY : UInt16 := 255
def kBadVers : RCode := 16

inductive Transport where
  | udp
  | tcp
  | dot
  | doh
deriving Repr, DecidableEq

structure ClientInfo where
  addr : SockAddr
  transport : Transport := .udp

/-- Why `query` cannot be answered by resolving it, if it cannot. -/
def rejectReason (query : Message) : Option RCode :=
  if query.edns.any fun e => e.version != 0 then some kBadVers
  else if query.header.opcode ≠ 0 then some RCode.NotImp
  else
    match query.questions with
    | [q] =>
      if q.qclass ≠ kClassIN then some RCode.Refused
      else if q.qtype = kTypeIXFR ∨ q.qtype = kTypeAXFR then some RCode.Refused
      else if q.qtype = kTypeOPT ∨ (128 ≤ q.qtype ∧ q.qtype < kTypeANY) then some RCode.FormErr
      else none
    | _ => some RCode.FormErr

/-- `questions.front()`, where there is one. -/
def question (m : Message) : Question := m.questions.headD {}

/-- The answer for a blocked name: an address that goes nowhere, or NXDOMAIN. -/
def blocked (response : Message) (lists : ListsConfig) : Message :=
  if lists.response = .nxDomain then
    { response with header := { response.header with rcode := RCode.NXDomain } }
  else
    let q := question response
    let rr : RR := { name := q.qname, ttl := lists.blockTtl, trust := .answer }
    if q.qtype = RRType.A then
      { response with answers := response.answers ++ [{ rr with type := RRType.A, rdata := .a 0 }] }
    else if q.qtype = RRType.AAAA then
      { response with
        answers := response.answers ++
          [{ rr with type := RRType.AAAA, rdata := .aaaa ⟨List.replicate 16 0, rfl⟩ }] }
    else response

structure BlockEvent where
  question : Question
  chain : List Name
  lookup : TrieLookupResult

structure RebindingEvent where
  question : Question
  removed : List RR
  emptied : Bool

structure Checks where
  access : AccessControl := {}
  rateLimit : RateLimiter
  rebinding : RebindingFilter := {}
  rrl : ResponseRateLimiter := {}

structure QueryProcessor where
  lists : Blocklists := {}
  checks : Checks

/-- What `handle` does with a query. -/
inductive Decision where
  /-- the responder is not called -/
  | drop
  | respond (response : Message) (event : Option BlockEvent)
  /-- `resolve()` is called; its callback is `answer` -/
  | resolve (q : Question) (checkChain : Bool) (response : Message)

/-- A client that is denied gets REFUSED or nothing. -/
def deny (action : DenyAction) (query : Message) : Decision :=
  match action with
  | .refuse => .respond (makeResponse query RCode.Refused) none
  | .drop => .drop

namespace QueryProcessor

/-- `handle`, once the client may ask. -/
def handleAllowed (p : QueryProcessor) (query : Message) : Decision :=
  match rejectReason query with
  | some rcode => .respond (makeResponse query rcode) none
  | none =>
    let q := question query
    let found := p.lists.lookup q.qname
    if found.matched && found.action == .block then
      .respond (blocked (makeResponse query) p.lists.config) (some ⟨q, [q.qname], found⟩)
    else .resolve q (p.lists.config.checkCnameChain && !found.matched) (makeResponse query)

def handle (p : QueryProcessor) (now : ℕ) (query : Message) (client : ClientInfo) :
    QueryProcessor × Decision :=
  if !p.checks.access.allows client.addr then (p, deny p.checks.access.deny query)
  else
    let (ok, rateLimit) := p.checks.rateLimit.allow client.addr now
    let p := { p with checks := { p.checks with rateLimit } }
    if !ok then (p, deny p.checks.rateLimit.config.action query) else (p, p.handleAllowed query)

/-- What the responder given to `handle` does: what reaches the transport. -/
def send (p : QueryProcessor) (now : ℕ) (client : ClientInfo) (response : Message) :
    QueryProcessor × Option Message :=
  if client.transport = .udp ∧ p.checks.rrl.enabled then
    let (verdict, rrl) := p.checks.rrl.check client.addr response now
    let p := { p with checks := { p.checks with rrl } }
    match verdict with
    | .send => (p, some response)
    | .slip => (p, some (truncated response))
    | .drop => (p, none)
  else (p, some response)

/-- A response, and what the log hears of. -/
structure Answer where
  response : Message
  block : Option BlockEvent := none
  rebinding : Option RebindingEvent := none

/-- The resolver's own answer, without private addresses. -/
def realAnswer (p : QueryProcessor) (response : Message) (found : Message) : Answer :=
  let asked := question response
  let (answers, removed) := p.checks.rebinding.strip asked.qname found.answers
  let emptied := !answers.any fun r => r.type == RRType.A || r.type == RRType.AAAA
  let event := if removed.isEmpty then none else some ⟨asked, removed, emptied⟩
  if !removed.isEmpty && emptied then
    { response := { response with header := { response.header with rcode := RCode.NXDomain } }
      rebinding := event }
  else
    { response := { response with
        header := { response.header with rcode := found.header.rcode }
        answers := answers
        authority := found.authority }
      rebinding := event }

/-- The callback of a resolution. -/
def answer (p : QueryProcessor) (checkChain : Bool) (response : Message) : Outcome → Answer
  | .error _ => { response := { response with header := { response.header with rcode := RCode.ServFail } } }
  | .ok result =>
    let asked := question response
    let cloaked :=
      if checkChain then findCloaked asked.qname result.response.answers p.lists.trie else none
    match cloaked with
    | some c =>
      { response := blocked response p.lists.config, block := some ⟨asked, c.chain, c.lookup⟩ }
    | none => p.realAnswer response result.response

end QueryProcessor

/-! ### What `handle` decides -/

/-- The client was denied, and is not told. -/
def Denied (p : QueryProcessor) (now : ℕ) (client : ClientInfo) : Prop :=
  p.checks.access.allows client.addr = false ∧ p.checks.access.deny = .drop ∨
    (p.checks.rateLimit.allow client.addr now).1 = false ∧
      p.checks.rateLimit.config.action = .drop

/-- The client may ask, and its query is one to resolve. -/
structure Admitted (p : QueryProcessor) (now : ℕ) (query : Message) (client : ClientInfo) : Prop where
  access : p.checks.access.allows client.addr = true
  rate : (p.checks.rateLimit.allow client.addr now).1 = true
  passed : rejectReason query = none
  unblocked : ((p.lists.lookup (question query).qname).matched &&
    (p.lists.lookup (question query).qname).action == .block) = false

variable {p : QueryProcessor} {now : ℕ} {query response : Message} {client : ClientInfo}

theorem deny_eq_drop {action : DenyAction} : deny action query = .drop ↔ action = .drop := by
  cases action <;> simp [deny]

theorem deny_ne_resolve {action : DenyAction} {q : Question} {checkChain : Bool} :
    deny action query ≠ .resolve q checkChain response := by
  cases action <;> simp [deny]

theorem handle_drop (h : (p.handle now query client).2 = .drop) : Denied p now client := by
  unfold QueryProcessor.handle at h
  dsimp only at h
  split_ifs at h with haccess hrate
  · exact .inl ⟨by simpa using haccess, deny_eq_drop.mp h⟩
  · refine .inr ⟨by simpa using hrate, ?_⟩
    rw [← RateLimiter.config_allow]
    exact deny_eq_drop.mp h
  · unfold QueryProcessor.handleAllowed at h
    dsimp only at h
    split at h
    · simp at h
    · split_ifs at h

theorem handle_resolve {q : Question} {checkChain : Bool}
    (h : (p.handle now query client).2 = .resolve q checkChain response) :
    Admitted p now query client ∧ q = question query ∧ response = makeResponse query ∧
      checkChain = (p.lists.config.checkCnameChain && !(p.lists.lookup q.qname).matched) := by
  unfold QueryProcessor.handle at h
  dsimp only at h
  split_ifs at h with haccess hrate
  · exact absurd h deny_ne_resolve
  · exact absurd h deny_ne_resolve
  · unfold QueryProcessor.handleAllowed at h
    dsimp only at h
    split at h
    · simp at h
    · next hreject =>
      split_ifs at h with hblocked
      simp only [Decision.resolve.injEq] at h
      obtain ⟨rfl, rfl, rfl⟩ := h
      exact ⟨⟨by simpa using haccess, by simpa using hrate, hreject, by simpa using hblocked⟩,
        rfl, rfl, rfl⟩

end DNSentinel.Server.Processor
