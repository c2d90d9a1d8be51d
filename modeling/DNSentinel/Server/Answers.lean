import DNSentinel.Policy.Cloaking
import DNSentinel.Resolver.Callbacks
import DNSentinel.Resolver.Results
import DNSentinel.Server.Processor

/-! # What clients are told

Two things a client must be able to rely on. NXDOMAIN is only said of a name that some server said
does not exist: so it is, unless a client asks for type 0, the cache slot of NXDOMAIN. And an answer
goes through no blocked name: so it is, unless the resolver comes back to a name it has been at, for
there `cname_chain` stops looking. -/

namespace DNSentinel.Server.Answers

open DNSentinel.Types Lib.Runs Store.Model Wire.Builder Policy.Addresses Policy.RateLimits
open Policy.Lists
open Policy.Cloaking (findCloaked_eq findCloakedLoop_eq_none)
open Resolver.Selection Resolver.Data Resolver.Machine Resolver.Effects Resolver.Events
open Resolver.Callbacks Resolver.Provenance Resolver.Results Processor

variable {cfg : Config} {env : Random} {w : World} {sizes : Sizes} {cacheConfig : CacheConfig}
  {es : List Event}

/-! ### NXDOMAIN -/

/-- Whenever a resolution has finished with NXDOMAIN, a server had said so of the name it ended
at. -/
def NxdomainSound (w : World) : Prop :=
  ∀ id t r earlier, .finished id t (.ok r) :: earlier <:+ w.trace →
    r.response.header.rcode = RCode.NXDomain → Denied earlier t.qname

/-- **NXDOMAIN is sound in every run in which no client asks for type 0.** -/
theorem nxdomain_sound (h : Run (Step cfg env) (start cfg sizes cacheConfig) es w)
    (hq : ∀ cb q, .resolve cb q ∈ w.trace → q.qtype ≠ kNxdomainType) : NxdomainSound w := by
  intro id t r earlier hfinished hrcode
  rcases (nxdomain_run h).finished id t r earlier hfinished hrcode with hdenied | hwanted
  · exact hdenied
  · rcases hwanted with htype | ⟨cb, q, hmem, htype⟩
    · exact absurd htype (by decide)
    · have htrace : .resolve cb q ∈ w.trace :=
        hfinished.subset (List.mem_cons_of_mem _ hmem)
      exact absurd htype (hq cb q htrace)

/-- A server's answer that `n` has no record of type `qtype`. -/
def nodataReply (n : Name) (qtype : UInt16) : Except UpstreamError Message :=
  .ok (reply ⟨n, qtype, kClassIN⟩
    { header := { aa := true }
      authority := [{ type := RRType.SOA, ttl := 60, rdata := .soa {} {} 1 1 1 1 60 }] })

/-- A server's answer that `n` does not exist. -/
def nxdomainReply (n : Name) (qtype : UInt16) : Except UpstreamError Message :=
  .ok (reply ⟨n, qtype, kClassIN⟩
    { header := { aa := true, rcode := RCode.NXDomain }
      authority := [{ type := RRType.SOA, ttl := 60, rdata := .soa {} {} 1 1 1 1 60 }] })

/-- A name that does not exist is asked for twice; the second answer is from the cache. -/
def deniedEvents : List Event :=
  [.resolve ⟨letter 97, RRType.A, kClassIN⟩, .timer 1,
    .upstream 1 (nxdomainReply (letter 97) RRType.A), .call,
    .resolve ⟨letter 97, RRType.MX, kClassIN⟩, .timer 3]

def asksType (qtype : UInt16) : Obs → Bool
  | .resolve _ q => q.qtype == qtype
  | _ => false

def saysNxdomain : Obs → Bool
  | .accepted _ _ m => m.header.rcode == RCode.NXDomain
  | _ => false

theorem nxdomain_sound_denied :
    ∃ w, Run (Step sampleConfig fun _ => 0) sampleStart deniedEvents w ∧
      (w.calls.length == 1) = true ∧ NxdomainSound w := by
  obtain ⟨w, hrun, hw⟩ := exists_run deniedEvents
    (P := fun w => w.calls.length == 1 && !w.trace.any (asksType kNxdomainType)) (by decide +kernel)
  rw [Bool.and_eq_true, Bool.not_eq_true', List.any_eq_false] at hw
  refine ⟨w, hrun, hw.1, nxdomain_sound hrun fun cb q hmem htype => ?_⟩
  exact hw.2 _ hmem (by simp [asksType, htype])

/-- A resolution ended in NXDOMAIN. -/
def denies : Obs → Bool
  | .finished _ _ (.ok r) => r.response.header.rcode == RCode.NXDomain
  | _ => false

theorem eq_finished_of_denies {o : Obs} (h : denies o = true) :
    ∃ id t r, o = .finished id t (.ok r) ∧ r.response.header.rcode = RCode.NXDomain := by
  unfold denies at h
  split at h
  · exact ⟨_, _, _, rfl, beq_iff_eq.mp h⟩
  · simp at h

/-- A client asks for type 0 of a name that has none, then another asks for its address. -/
def typeZeroEvents : List Event :=
  [.resolve ⟨letter 97, 0, kClassIN⟩, .timer 1, .upstream 1 (nodataReply (letter 97) 0), .call,
    .resolve ⟨letter 97, RRType.A, kClassIN⟩, .timer 3]

/-- The second client is told that the name does not exist, and no server said so. -/
theorem not_nxdomainSound_typeZero :
    (∀ q, .resolve q ∈ typeZeroEvents → rejectReason { questions := [q] } = none) ∧
      ∃ w, Run (Step sampleConfig fun _ => 0) sampleStart typeZeroEvents w ∧ ¬ NxdomainSound w := by
  constructor
  · intro q hq
    simp only [typeZeroEvents, List.mem_cons, Event.resolve.injEq, reduceCtorEq, List.not_mem_nil,
      or_false, false_or] at hq
    rcases hq with rfl | rfl <;> decide
  · obtain ⟨w, hrun, hdenies⟩ := exists_run typeZeroEvents
      (P := fun w => w.trace.head?.any denies && !w.trace.any saysNxdomain) (by decide +kernel)
    refine ⟨w, hrun, fun hsound => ?_⟩
    simp only [Bool.and_eq_true, Bool.not_eq_true', List.any_eq_false, Option.any_eq_true] at hdenies
    obtain ⟨⟨o, ho, hdenied⟩, hnone⟩ := hdenies
    obtain ⟨earlier, htrace⟩ := List.head?_eq_some_iff.mp ho
    obtain ⟨id, t, r, rfl, hcode⟩ := eq_finished_of_denies hdenied
    obtain ⟨_, _, m, hm, hrcode, -⟩ := hsound id t r earlier (htrace ▸ List.suffix_rfl) hcode
    exact hnone _ (htrace ▸ List.mem_cons_of_mem _ hm) (by simp [saysNxdomain, hrcode])

/-! ### The walk along a chain -/

/-- The names a chain of CNAMEs leads to. -/
def targets (chain : List RR) : List Name := chain.filterMap fun r => cnameTarget r.rdata

/-- The names before the first that has been `seen`, or comes twice. -/
def untilRevisit : List Name → List Name → List Name
  | _, [] => []
  | seen, n :: rest =>
    if seen.any fun s => s == n then [] else n :: untilRevisit (seen ++ [n]) rest

/-- A record that `cname_chain` passes over when it is at `n`. -/
def Passed (n : Name) (r : RR) : Prop :=
  (r.name == n) = false ∨ r.type ≠ RRType.CNAME ∨ cnameTarget r.rdata = none

theorem nextHop_passed {n : Name} {rest : List RR} :
    ∀ {rs : List RR}, (∀ r ∈ rs, Passed n r) → nextHop (rs ++ rest) n = nextHop rest n
  | [], _ => rfl
  | r :: rs, h => by
    have ih : nextHop (rs ++ rest) n = nextHop rest n :=
      nextHop_passed fun x hx => h x (List.mem_cons_of_mem _ hx)
    rw [← ih]
    unfold nextHop
    rw [List.cons_append, List.find?_cons_of_neg]
    rcases h r List.mem_cons_self with hname | htype | hdata
    · simp [hname]
    · simp [htype]
    · simp [hdata]

theorem nextHop_first {n target : Name} {r : RR} {rest : List RR} (hname : (r.name == n) = true)
    (htype : r.type = RRType.CNAME) (hdata : r.rdata = .cname target) :
    nextHop (r :: rest) n = some target := by
  have htarget : cnameTarget r.rdata = some target := by simp [hdata, cnameTarget]
  unfold nextHop
  rw [List.find?_cons_of_pos (by simp [hname, htype, htarget])]
  exact htarget

/-- `cname_chain` has been along `visited` and is at `n`: all of these are names it has seen, and `n`
owns none of the records behind it. -/
structure Walked (qname : Name) (visited : List RR) (n : Name) : Prop where
  behind : ∀ r ∈ visited, (r.name == n) = false
  owners : ∀ r ∈ visited, ∃ s ∈ qname :: targets visited, (s == r.name) = true
  here : ∃ s ∈ qname :: targets visited, (s == n) = true

theorem walked_start (qname : Name) : Walked qname [] qname :=
  ⟨by simp, by simp, qname, List.mem_cons_self, Name.beq_refl qname⟩

theorem targets_snoc {visited : List RR} {r : RR} {target : Name} (hdata : r.rdata = .cname target) :
    targets (visited ++ [r]) = targets visited ++ [target] := by
  simp [targets, hdata, cnameTarget]

/-- On to a name that has not been seen. -/
theorem Walked.next {qname n target : Name} {visited : List RR} {r : RR}
    (h : Walked qname visited n) (hname : (r.name == n) = true) (hdata : r.rdata = .cname target)
    (hnew : ∀ s ∈ qname :: targets visited, (s == target) = false) :
    Walked qname (visited ++ [r]) target := by
  have hseen : ∀ x ∈ visited ++ [r], ∃ s ∈ qname :: targets visited, (s == x.name) = true := by
    intro x hx
    rcases List.mem_append.mp hx with hx | hx
    · exact h.owners x hx
    · obtain ⟨s, hs, hsn⟩ := h.here
      refine ⟨s, hs, ?_⟩
      rw [List.mem_singleton.mp hx, Name.beq_iff]
      exact (Name.beq_iff.mp hsn).trans (Name.beq_iff.mp hname).symm
  have hmore : qname :: targets (visited ++ [r]) = (qname :: targets visited) ++ [target] := by
    rw [targets_snoc hdata, List.cons_append]
  refine ⟨?_, ?_, target, ?_, Name.beq_refl target⟩
  · intro x hx
    obtain ⟨s, hs, hsx⟩ := hseen x hx
    rw [← hnew s hs, Bool.eq_iff_iff, Name.beq_iff, Name.beq_iff, Name.beq_iff.mp hsx]
  · intro x hx
    obtain ⟨s, hs, hsx⟩ := hseen x hx
    exact ⟨s, hmore ▸ List.mem_append_left _ hs, hsx⟩
  · exact hmore ▸ List.mem_append_right _ List.mem_cons_self

/-- From `n`, where `chain` goes on. -/
theorem cnameChainLoop_linked {qname : Name} {rest : List RR}
    (hrest : ∀ r ∈ rest, r.type ≠ RRType.CNAME ∨ cnameTarget r.rdata = none) :
    ∀ (chain visited : List RR) (fuel : ℕ) (n m : Name), Linked n chain m → chain.length < fuel →
    Walked qname visited n →
    cnameChainLoop qname (visited ++ chain ++ rest) fuel n (targets visited) =
      targets visited ++ untilRevisit (qname :: targets visited) (targets chain)
  | [], visited, fuel + 1, n, m, _, _, hwalked => by
    have hpassed : ∀ r ∈ visited ++ rest, Passed n r := by
      intro r hr
      rcases List.mem_append.mp hr with hr | hr
      · exact .inl (hwalked.behind r hr)
      · exact .inr (hrest r hr)
    have hend : nextHop (visited ++ rest) n = none := by
      have h : nextHop (visited ++ rest ++ []) n = nextHop [] n := nextHop_passed hpassed
      rwa [List.append_nil] at h
    unfold cnameChainLoop
    rw [List.append_nil, hend]
    exact (List.append_nil _).symm
  | r :: chain, visited, fuel + 1, n, m, ⟨hname, htype, target, hdata, hlinked⟩, hfuel, hwalked => by
    have hhop : nextHop (visited ++ r :: chain ++ rest) n = some target := by
      rw [List.append_assoc, nextHop_passed fun x hx => .inl (hwalked.behind x hx)]
      exact nextHop_first hname htype hdata
    have htargets : targets (r :: chain) = target :: targets chain := by
      simp [targets, hdata, cnameTarget]
    have hstop : (target == qname || (targets visited).any fun x => x == target) =
        (qname :: targets visited).any fun s => s == target := by
      rw [List.any_cons, Name.beq_comm]
    unfold cnameChainLoop
    rw [hhop, htargets]
    unfold untilRevisit
    simp only [hstop]
    by_cases hrevisit : ((qname :: targets visited).any fun s => s == target) = true
    · rw [if_pos hrevisit, if_pos hrevisit, List.append_nil]
    · rw [if_neg hrevisit, if_neg hrevisit]
      have hnew : ∀ s ∈ qname :: targets visited, (s == target) = false := by
        simpa using hrevisit
      have ih := cnameChainLoop_linked hrest chain (visited ++ [r]) fuel target m hlinked
        (by simpa using hfuel) (hwalked.next hname hdata hnew)
      rw [targets_snoc hdata, List.append_assoc visited, List.singleton_append] at ih
      rw [ih, List.append_assoc]
      rfl

/-- `cname_chain` on the answers of a resolution. -/
theorem cnameChain_linked {qname m : Name} {chain rest : List RR} (h : Linked qname chain m)
    (hrest : ∀ r ∈ rest, r.type ≠ RRType.CNAME ∨ cnameTarget r.rdata = none) :
    cnameChain qname (chain ++ rest) = untilRevisit [qname] (targets chain) := by
  have hfuel : chain.length < (chain ++ rest).length + 1 := by
    rw [List.length_append]
    omega
  exact cnameChainLoop_linked hrest chain [] _ qname m h hfuel (walked_start qname)

theorem findCloaked_linked {trie : BlocklistTrie} {qname m : Name} {chain rest : List RR}
    (h : Linked qname chain m)
    (hrest : ∀ r ∈ rest, r.type ≠ RRType.CNAME ∨ cnameTarget r.rdata = none) :
    findCloaked qname (chain ++ rest) trie = none ↔
      ∀ n ∈ untilRevisit [qname] (targets chain), trie.blocks n = false := by
  rw [findCloaked_eq, cnameChain_linked h hrest]
  exact findCloakedLoop_eq_none

/-! ### No blocked name in the chain -/

/-- Rebinding protection has left no address, so the client is told NXDOMAIN. -/
def emptied (a : QueryProcessor.Answer) : Bool := a.rebinding.any fun e => e.emptied

/-- If the client gets the resolver's answers, no name the chain leads to is blocked. -/
def NoEscape (trie : BlocklistTrie) (chain : List RR) (a : QueryProcessor.Answer) : Prop :=
  a.block = none → emptied a = false → ∀ n ∈ targets chain, trie.blocks n = false

theorem answer_block {p : QueryProcessor} {response : Message} {r : ResolveResult} :
    (p.answer true response (.ok r)).block = none ↔
      findCloaked (question response).qname r.response.answers p.lists.trie = none := by
  unfold QueryProcessor.answer QueryProcessor.realAnswer
  dsimp only [if_true]
  cases findCloaked (question response).qname r.response.answers p.lists.trie with
  | some c => simp
  | none => split_ifs <;> simp

theorem answer_real {p : QueryProcessor} {response : Message} {r : ResolveResult}
    (h : findCloaked (question response).qname r.response.answers p.lists.trie = none) :
    p.answer true response (.ok r) = p.realAnswer response r.response := by
  unfold QueryProcessor.answer
  simp [h]

/-- The callback, on the answers of a resolution. -/
theorem noEscape_answer {p : QueryProcessor} {response : Message} {r : ResolveResult} {m : Name}
    {chain rest : List RR} (hanswers : r.response.answers = chain ++ rest)
    (hlinked : Linked (question response).qname chain m)
    (hrest : chain ≠ [] → ∀ x ∈ rest, x.type ≠ RRType.CNAME ∨ cnameTarget x.rdata = none) :
    NoEscape p.lists.trie chain (p.answer true response (.ok r)) ↔
      (∀ n ∈ targets chain, p.lists.trie.blocks n = false) ∨
      (∃ n ∈ untilRevisit [(question response).qname] (targets chain),
        p.lists.trie.blocks n = true) ∨
      emptied (p.realAnswer response r.response) = true := by
  by_cases hne : chain = []
  · subst hne
    simp [NoEscape, targets]
  have hcloaked : findCloaked (question response).qname r.response.answers p.lists.trie = none ↔
      ∀ n ∈ untilRevisit [(question response).qname] (targets chain),
        p.lists.trie.blocks n = false := by
    rw [hanswers]
    exact findCloaked_linked hlinked (hrest hne)
  unfold NoEscape
  rw [answer_block]
  constructor
  · intro h
    by_cases hnone : findCloaked (question response).qname r.response.answers p.lists.trie = none
    · rw [answer_real hnone] at h
      by_cases hempty : emptied (p.realAnswer response r.response) = true
      · exact .inr (.inr hempty)
      · exact .inl (h hnone (by simpa using hempty))
    · rw [hcloaked] at hnone
      push Not at hnone
      obtain ⟨n, hn, hblocked⟩ := hnone
      exact .inr (.inl ⟨n, hn, by simpa using hblocked⟩)
  · rintro (hclear | ⟨n, hn, hblocked⟩ | hempty) hnone hleft
    · exact hclear
    · rw [hcloaked.mp hnone n hn] at hblocked
      exact absurd hblocked (by decide)
    · rw [answer_real hnone, hempty] at hleft
      exact absurd hleft (by decide)

/-- **A blocked name escapes exactly if the chain comes back to a name before it**: the chain of the
task that has to call the client back, for every client question that matches no rule, whatever the
servers do, and whatever lists are in use when the resolution finishes. -/
theorem noEscape_iff (h : Run (Step cfg env) (start cfg sizes cacheConfig) es w) {cb now : ℕ}
    {r : ResolveResult} {p p' : QueryProcessor} {query response : Message} {client : ClientInfo}
    {q : Question} {checkChain : Bool} (hq : .resolve cb q ∈ w.trace)
    (hhandle : (p.handle now query client).2 = .resolve q checkChain response)
    (hcheck : p.lists.config.checkCnameChain = true)
    (hunlisted : (p.lists.lookup q.qname).matched = false) (hcalled : .called cb (.ok r) ∈ w.trace) :
    ∃ id t r', .finished id t (.ok r') ∈ w.trace ∧ cb ∈ callbacks t ∧
      r.response.answers = r'.response.answers ∧
      (NoEscape p'.lists.trie t.chain (p'.answer checkChain response (.ok r)) ↔
        (∀ n ∈ targets t.chain, p'.lists.trie.blocks n = false) ∨
        (∃ n ∈ untilRevisit [q.qname] (targets t.chain), p'.lists.trie.blocks n = true) ∨
        emptied (p'.realAnswer response r.response) = true) := by
  obtain ⟨-, rfl, rfl, rfl⟩ := handle_resolve hhandle
  have horderly : Orderly w := orderly_run h
  obtain ⟨q', id, t, result, hq', hfinished, hcb, hkey, hsame⟩ := horderly.answered cb _ hcalled
  obtain rfl := horderly.ownQuestion cb _ _ hq hq'
  cases result with
  | error e => exact False.elim hsame
  | ok r' =>
    have hanswers : r.response.answers = r'.response.answers := by
      rw [show r.response = _ from hsame]
    obtain ⟨l₁, l₂, htrace⟩ := List.append_of_mem hfinished
    have hsuffix : .finished id t (.ok r') :: l₂ <:+ w.trace := ⟨l₁, htrace.symm⟩
    obtain ⟨hchain, rest, hrest, htypes⟩ := (chained_run h).finished id t r' l₂ hsuffix
    have hname : t.question.qname.labels = (question query).qname.labels :=
      (congrArg Prod.fst hkey).symm
    refine ⟨id, t, r', hfinished, hcb, hanswers, ?_⟩
    rw [hcheck, hunlisted]
    refine noEscape_answer (hanswers.trans hrest) (hchain.linked.congr hname) ?_
    intro hne x hx
    rcases htypes x hx with htype | hns
    · exact .inl (htype ▸ hchain.qtype hne)
    · refine .inr ?_
      cases hdata : x.rdata <;> simp [hdata, isNs, cnameTarget] at hns ⊢

/-- Lists with one rule, which blocks `b` and everything below it. -/
def sampleLists : Blocklists :=
  { trie :=
    { nodes := [{ firstChild := 1, childCount := 1 }, { labelLength := 1, flags := kBlockSubtree }]
      labels := [98], sources := ["ads"] } }

def sampleProcessor : QueryProcessor :=
  { lists := sampleLists, checks := { rateLimit := .create { qps := 0 } } }

def sampleQuestion : Question := ⟨letter 97, RRType.A, kClassIN⟩

def sampleQuery : Message := { questions := [sampleQuestion] }

/-- A client on this machine. -/
def sampleClient : ClientInfo := { addr := .inet 0x7F000001 }

theorem handle_sampleQuery : (sampleProcessor.handle 0 sampleQuery sampleClient).2 =
    .resolve sampleQuestion true (makeResponse sampleQuery) := by rfl

/-- The server's answer to the question for the address of `n`. -/
def addressReply (n : Name) : Except UpstreamError Message :=
  .ok (reply ⟨n, RRType.A, kClassIN⟩
    { header := { aa := true }, answers := [{ name := n, ttl := 60, rdata := .a 0x08080808 }] })

def aliasOf (n target : Name) : Except UpstreamError Message :=
  .ok (reply ⟨n, RRType.A, kClassIN⟩
    { header := { aa := true }
      answers := [{ name := n, type := RRType.CNAME, rdata := .cname target }] })

/-- `a` is an alias of `c`. -/
def aliasedEvents : List Event :=
  [.resolve sampleQuestion, .timer 1, .upstream 1 (aliasOf (letter 97) (letter 99)),
    .upstream 2 (addressReply (letter 99)), .call]

/-- What the first callback was called with last of all, and the task that found it. -/
def lastAnswer (w : World) : Option (Task × ResolveResult) :=
  match w.trace with
  | .called 0 (.ok r) :: .finished _ t _ :: _ => some (t, r)
  | _ => none

theorem mem_of_lastAnswer {t : Task} {r : ResolveResult} (h : lastAnswer w = some (t, r)) :
    .called 0 (.ok r) ∈ w.trace ∧ ∃ id r', .finished id t r' ∈ w.trace := by
  unfold lastAnswer at h
  split at h
  · next r₀ id t₀ r' rest htrace =>
    obtain ⟨rfl, rfl⟩ := Prod.mk.inj (Option.some.inj h)
    rw [htrace]
    exact ⟨List.mem_cons_self, id, r', List.mem_cons_of_mem _ List.mem_cons_self⟩
  · simp at h

theorem noEscape_iff_aliased :
    ∃ w r, Run (Step sampleConfig fun _ => 0) sampleStart aliasedEvents w ∧
      .called 0 (.ok r) ∈ w.trace ∧ ∃ id t r', .finished id t (.ok r') ∈ w.trace ∧ 0 ∈ callbacks t ∧
      r.response.answers = r'.response.answers ∧
      (NoEscape sampleLists.trie t.chain
          (sampleProcessor.answer true (makeResponse sampleQuery) (.ok r)) ↔
        (∀ n ∈ targets t.chain, sampleLists.trie.blocks n = false) ∨
        (∃ n ∈ untilRevisit [letter 97] (targets t.chain), sampleLists.trie.blocks n = true) ∨
        emptied (sampleProcessor.realAnswer (makeResponse sampleQuery) r.response) = true) := by
  obtain ⟨w, hrun, hlast⟩ := exists_run aliasedEvents (P := fun w => (lastAnswer w).isSome)
    (by decide +kernel)
  obtain ⟨⟨t, r⟩, hlast⟩ := Option.isSome_iff_exists.mp hlast
  have hcalled := (mem_of_lastAnswer hlast).1
  have hrun' : Run (Step sampleConfig fun _ => 0) { shared := sampleStart.shared } _ w := hrun
  refine ⟨w, r, hrun, hcalled, ?_⟩
  exact noEscape_iff hrun (resolve_mem hrun') handle_sampleQuery rfl (by decide +kernel) hcalled

/-- `a` is an alias of `c`, which is one of `a`, and `a` is asked for again and is one of `b`. -/
def revisitEvents : List Event :=
  [.resolve sampleQuestion, .timer 1, .upstream 1 (aliasOf (letter 97) (letter 99)),
    .upstream 2 (aliasOf (letter 99) (letter 97)), .upstream 3 (aliasOf (letter 97) (letter 98)),
    .upstream 4 (addressReply (letter 98)), .call]

/-- The client gets the address of `b`, which is blocked. -/
theorem not_noEscape_revisit :
    ∃ w t r, Run (Step sampleConfig fun _ => 0) sampleStart revisitEvents w ∧
      (sampleProcessor.handle 0 sampleQuery sampleClient).2 =
        .resolve sampleQuestion true (makeResponse sampleQuery) ∧
      .resolve 0 sampleQuestion ∈ w.trace ∧ .called 0 (.ok r) ∈ w.trace ∧
      (∃ id r', .finished id t r' ∈ w.trace) ∧ 0 ∈ callbacks t ∧
      ¬ NoEscape sampleLists.trie t.chain
        (sampleProcessor.answer true (makeResponse sampleQuery) (.ok r)) := by
  let escapes : World → Bool := fun w => (lastAnswer w).any fun (t, r) =>
    let a := sampleProcessor.answer true (makeResponse sampleQuery) (.ok r)
    decide (0 ∈ callbacks t) && a.block.isNone && !emptied a &&
      (targets t.chain).any sampleLists.trie.blocks
  obtain ⟨w, hrun, hescapes⟩ := exists_run revisitEvents (P := escapes) (by decide +kernel)
  simp only [escapes, Option.any_eq_true] at hescapes
  obtain ⟨⟨t, r⟩, hlast, hout⟩ := hescapes
  have hrun' : Run (Step sampleConfig fun _ => 0) { shared := sampleStart.shared } _ w := hrun
  obtain ⟨hcalled, hfinished⟩ := mem_of_lastAnswer hlast
  simp only [Bool.and_eq_true, decide_eq_true_eq, Option.isNone_iff_eq_none, Bool.not_eq_true',
    List.any_eq_true] at hout
  obtain ⟨⟨⟨hcb, hblock⟩, hleft⟩, n, hn, hblocked⟩ := hout
  refine ⟨w, t, r, hrun, handle_sampleQuery, resolve_mem hrun', hcalled, hfinished, hcb, fun hnone => ?_⟩
  rw [hnone hblock hleft n hn] at hblocked
  exact absurd hblocked (by decide)

end DNSentinel.Server.Answers
