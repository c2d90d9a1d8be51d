import DNSentinel.Policy.Cloaking
import DNSentinel.Policy.Responses
import DNSentinel.Resolver.Pattern
import DNSentinel.Server.Serving

/-! # Clients do not see the pattern

The server in two runs that differ in the random letter case of one upstream query. If the replies are
alike but for suffixes of the name asked, so are the responses: the lists, rebinding protection and
response rate limiting look at names without regard to case. A client that asked that name has it in
its question, and what is alike but for suffixes of that is the same on the wire. A client whose
question led to that name through cached CNAMEs may be sent the pattern (the last section). -/

namespace DNSentinel.Server.Pattern

open DNSentinel.Types Lib Lib.Runs Lib.Pairs Wire.Builder Wire.WellFormed Wire.ParserSound
open Wire.SharedCase Policy.Addresses Policy.RateLimits Policy.Lists Policy.Cloaking
open Policy.Responses Resolver Resolver.Selection Resolver.Data Resolver.Core Resolver.Machine
open Resolver.Lockstep Resolver.Pattern Resolver.Callbacks Resolver.Events Processor Serving
open Wire.Parser (parse)
open List (Forall₂)

variable {asked : List Label} {rrs rrs' : List RR} {m m' : Message} {a b : Name}

/-! ### The checks on an answer -/

theorem cnameTarget_alike {d d' : RData} (h : RdataAlike asked d d') :
    Option.Rel (NameAlike asked) (cnameTarget d) (cnameTarget d') := by
  cases h with
  | cname h => exact .some h
  | same d =>
    cases d with
    | cname n => exact .some (.refl n)
    | _ => exact .none
  | _ => exact .none

theorem nextHop_alike (h : RrsAlike asked rrs rrs') (hab : NameAlike asked a b) :
    Option.Rel (NameAlike asked) (nextHop rrs a) (nextHop rrs' b) := by
  have hfound := Aligned.find? (p := fun r => r.type == RRType.CNAME && r.name == a &&
      (cnameTarget r.rdata).isSome) (q := fun r => r.type == RRType.CNAME && r.name == b &&
      (cnameTarget r.rdata).isSome) (fun r r' hr => by
    have hsome : (cnameTarget r.rdata).isSome = (cnameTarget r'.rdata).isSome := by
      rcases Aligned.option_cases (cnameTarget_alike hr.rdata) with ⟨hc, hc'⟩ | ⟨_, _, hc, hc', -⟩
      · rw [hc, hc']
      · rw [hc, hc', Option.isSome_some, Option.isSome_some]
    rw [hr.type, hr.name.beq, hab.beq_right, hsome]) h
  unfold nextHop
  rcases Aligned.option_cases hfound with ⟨hr, hr'⟩ | ⟨r, r', hr, hr', hrr⟩
  · rw [hr, hr']
    exact .none
  · rw [hr, hr']
    exact cnameTarget_alike hrr.rdata

theorem cnameChainLoop_alike (qname : Name) (h : RrsAlike asked rrs rrs') :
    ∀ (fuel : ℕ) {a b : Name} {chain chain' : List Name}, NameAlike asked a b →
    Forall₂ (NameAlike asked) chain chain' →
    Forall₂ (NameAlike asked) (cnameChainLoop qname rrs fuel a chain)
      (cnameChainLoop qname rrs' fuel b chain')
  | 0, _, _, _, _, _, hchain => hchain
  | fuel + 1, a, b, chain, chain', hab, hchain => by
    unfold cnameChainLoop
    rcases Aligned.option_cases (nextHop_alike h hab) with ⟨hn, hn'⟩ | ⟨n, n', hn, hn', hnn⟩
    · rw [hn, hn']
      exact hchain
    · rw [hn, hn']
      dsimp only
      have hseen : (chain.any fun x => x == n) = chain'.any fun x => x == n' :=
        Aligned.any (fun x x' hx => by rw [hx.beq, hnn.beq_right]) hchain
      rw [hnn.beq, hseen]
      split_ifs
      · exact hchain
      · exact cnameChainLoop_alike qname h fuel hnn (List.rel_append hchain (.cons hnn .nil))

theorem blocks_alike (h : NameAlike asked a b) (trie : BlocklistTrie) :
    trie.blocks a = trie.blocks b := by
  unfold BlocklistTrie.blocks BlocklistTrie.lookup
  rw [h.labels]

theorem isSome_findCloaked (qname : Name) (answers : List RR) (trie : BlocklistTrie) :
    (findCloaked qname answers trie).isSome = (cnameChain qname answers).any trie.blocks := by
  have hnone : findCloakedLoop trie [qname] (cnameChain qname answers) = none ↔
      ∀ n ∈ cnameChain qname answers, trie.blocks n = false := findCloakedLoop_eq_none
  rw [findCloaked_eq, Bool.eq_iff_iff, ← not_iff_not, Bool.not_eq_true, Bool.not_eq_true,
    Option.isSome_eq_false_iff, Option.isNone_iff_eq_none, hnone, List.any_eq_false]
  simp

/-- A blocked name hides in the chain of both answers or of neither. -/
theorem findCloaked_alike (qname : Name) (trie : BlocklistTrie) (h : RrsAlike asked rrs rrs') :
    (findCloaked qname rrs trie).isSome = (findCloaked qname rrs' trie).isSome := by
  have hchain : Forall₂ (NameAlike asked) (cnameChain qname rrs) (cnameChain qname rrs') := by
    unfold cnameChain
    rw [← h.length_eq]
    exact cnameChainLoop_alike qname h _ (.refl qname) .nil
  rw [isSome_findCloaked, isSome_findCloaked]
  exact Aligned.any (R := NameAlike asked) (fun _ _ hab => blocks_alike hab trie) hchain

theorem isPrivateAddress_alike {d d' : RData} (h : RdataAlike asked d d') :
    isPrivateAddress d = isPrivateAddress d' := by
  cases h <;> rfl

/-- The same private addresses are removed from both. -/
theorem strip_alike (f : RebindingFilter) (qname : Name) (h : RrsAlike asked rrs rrs') :
    RrsAlike asked (f.strip qname rrs).1 (f.strip qname rrs').1 ∧
      RrsAlike asked (f.strip qname rrs).2 (f.strip qname rrs').2 := by
  unfold RebindingFilter.strip
  split_ifs
  · exact ⟨h, .nil⟩
  · rw [List.partition_eq_filter_filter, List.partition_eq_filter_filter]
    refine ⟨Aligned.filter (fun r r' hr => ?_) h, Aligned.filter (fun r r' hr => ?_) h⟩
    · rw [isPrivateAddress_alike hr.rdata]
    · simp only [Function.comp_apply, isPrivateAddress_alike hr.rdata]

theorem realAnswer_alike (p : QueryProcessor) (response : Message) (h : ResponsesAlike asked m m') :
    ResponsesAlike asked (p.realAnswer response m).response (p.realAnswer response m').response := by
  obtain ⟨hkept, hremoved⟩ := strip_alike p.checks.rebinding (question response).qname h.answers
  have hemptied : ((p.checks.rebinding.strip (question response).qname m.answers).1.any
      fun r => r.type == RRType.A || r.type == RRType.AAAA) =
      (p.checks.rebinding.strip (question response).qname m'.answers).1.any
        fun r => r.type == RRType.A || r.type == RRType.AAAA :=
    Aligned.any (fun r r' hr => by rw [hr.type]) hkept
  unfold QueryProcessor.realAnswer
  dsimp only
  rw [hemptied, Aligned.isEmpty hremoved, h.header]
  split
  · exact .refl _
  · exact ⟨rfl, rfl, rfl, hkept, h.authority, rrsAlike_refl _⟩

/-- **The processor answers alike.** -/
theorem answer_alike (p : QueryProcessor) (checkChain : Bool) (response : Message)
    {r r' : ResolveResult} (h : ResponsesAlike asked r.response r'.response) :
    ResponsesAlike asked (p.answer checkChain response (.ok r)).response
      (p.answer checkChain response (.ok r')).response := by
  have hcloaked : (if checkChain then findCloaked (question response).qname r.response.answers
        p.lists.trie else none).isSome =
      (if checkChain then findCloaked (question response).qname r'.response.answers
        p.lists.trie else none).isSome := by
    split_ifs
    · exact findCloaked_alike _ _ h.answers
    · rfl
  unfold QueryProcessor.answer
  dsimp only
  generalize (if checkChain = true then findCloaked (question response).qname r.response.answers
    p.lists.trie else none) = c at hcloaked ⊢
  generalize (if checkChain = true then findCloaked (question response).qname r'.response.answers
    p.lists.trie else none) = c' at hcloaked ⊢
  cases c with
  | none =>
    cases c' with
    | none => exact realAnswer_alike p response h
    | some c' => exact absurd hcloaked (by simp)
  | some c =>
    cases c' with
    | none => exact absurd hcloaked (by simp)
    | some c' => exact .refl _

/-! ### The way out -/

theorem toString_alike (h : NameAlike asked a b) : a.toString = b.toString := by
  unfold Name.toString
  rw [h.labels]

theorem fingerprint_alike (l : ResponseRateLimiter) (ip : IpAddress)
    (h : ResponsesAlike asked m m') : l.fingerprint ip m = l.fingerprint ip m' := by
  have hzone : ∀ negative : Bool, Option.Rel (RrAlike asked)
      (if negative then m.authority.find? fun r => r.type == RRType.SOA else none)
      (if negative then m'.authority.find? fun r => r.type == RRType.SOA else none) := by
    intro negative
    split_ifs
    · exact Aligned.find? (fun r r' hr => by rw [hr.type]) h.authority
    · exact .none
  have hname : countedName m = countedName m' := by
    unfold countedName
    dsimp only
    rw [h.header, Aligned.isEmpty h.answers, h.questions]
    rcases Aligned.option_cases (hzone _) with ⟨hr, hr'⟩ | ⟨r, r', hr, hr', hrr⟩
    · rw [hr, hr']
    · rw [hr, hr']
      exact toString_alike hrr.name
  unfold ResponseRateLimiter.fingerprint
  rw [hname, h.header, h.questions]

theorem check_alike (l : ResponseRateLimiter) (client : SockAddr) (now : ℕ)
    (h : ResponsesAlike asked m m') : l.check client m now = l.check client m' now := by
  have hunder : countedUnder l client m = countedUnder l client m' := by
    unfold countedUnder
    simp only [fingerprint_alike l _ h]
  rw [check_eq, check_eq, hunder]

/-- Response rate limiting does the same with both. -/
theorem send_alike (p : QueryProcessor) (now : ℕ) (client : ClientInfo)
    (h : ResponsesAlike asked m m') : (p.send now client m).1 = (p.send now client m').1 ∧
      Option.Rel (ResponsesAlike asked) (p.send now client m).2 (p.send now client m').2 := by
  unfold QueryProcessor.send
  rw [check_alike _ _ _ h]
  dsimp only
  split_ifs
  · generalize p.checks.rrl.check client.addr m' now = x
    obtain ⟨verdict, rrl⟩ := x
    cases verdict with
    | send => exact ⟨rfl, .some h⟩
    | slip =>
      refine ⟨rfl, .some ⟨?_, h.questions, h.edns, .nil, .nil, .nil⟩⟩
      unfold truncated
      rw [h.header]
    | drop => exact ⟨rfl, .none⟩
  · exact ⟨rfl, .some h⟩

/-! ### The server in two runs -/

/-- The server with one query of its resolver in another look. -/
inductive ServiceTwins (qid : ℕ) : Service → Service → Prop where
  | mk (s : Service) (w : World) (h : Twins qid s.resolver w) :
      ServiceTwins qid s { s with resolver := w }

variable {cfg : Config} {env : Random} {qid : ℕ} {s s' t t' : Service}

theorem respond_twins (h : ServiceTwins qid s s') (n now : ℕ) (client : ClientInfo)
    (response : Message) :
    ServiceTwins qid (s.respond n now client response) (s'.respond n now client response) := by
  obtain ⟨w, hw⟩ := h
  unfold Service.respond
  dsimp only
  generalize s.processor.send now client response = x
  exact .mk _ w hw

theorem handle_twins (cfg : Config) (h : ServiceTwins qid s s') (now later : ℕ) (query : Message)
    (client : ClientInfo) :
    ServiceTwins qid (s.handle cfg now later query client) (s'.handle cfg now later query client) := by
  obtain ⟨w, hw⟩ := h
  have hnext : w.nextCallback = s.resolver.nextCallback := by cases hw; rfl
  unfold Service.handle
  dsimp only
  generalize s.processor.handle now query client = x
  obtain ⟨p, decision⟩ := x
  cases decision with
  | drop => exact .mk _ w hw
  | respond response event =>
    exact respond_twins (.mk { s with processor := p, nextQuery := _, log := _ } w hw) _ _ _ _
  | resolve q checkChain response =>
    dsimp only
    rw [hnext]
    exact .mk _ _ (hw.resolveClient q)

theorem callback_twins (h : ServiceTwins qid s s') (now cb : ℕ) (result : Outcome) :
    ServiceTwins qid (s.callback now cb result) (s'.callback now cb result) := by
  have hrespond := respond_twins h
  obtain ⟨w, hw⟩ := h
  unfold Service.callback
  dsimp only
  cases s.waiting cb with
  | none => exact .mk _ w hw
  | some k => exact hrespond _ _ _ _

/-- An event that does not complete the query. -/
def Bystander (qid : ℕ) (e : Serving.Event) : Prop := ∀ result, e ≠ .resolver (.upstream qid result)

theorem step_bystander (s s' t t' : Service) (e : Serving.Event) (he : Bystander qid e)
    (h : ServiceTwins qid s t) (hs : Serving.Step cfg env s e s') (ht : Serving.Step cfg env t e t') :
    ServiceTwins qid s' t' := by
  obtain ⟨fuel, hs⟩ := hs
  obtain ⟨fuel', ht⟩ := ht
  cases e with
  | handle now later query client =>
    have hhandle := handle_twins cfg h now later query client
    obtain ⟨w, hw⟩ := h
    simp only [Serving.apply] at hs ht
    split_ifs at hs ht
    obtain rfl := Option.some.inj hs
    obtain rfl := Option.some.inj ht
    exact hhandle
  | resolver e =>
    obtain ⟨w, hw⟩ := h
    simp only [Serving.apply] at hs ht
    split_ifs at hs ht
    obtain ⟨v, hv, rfl⟩ := Option.map_eq_some_iff.mp hs
    obtain ⟨v', hv', rfl⟩ := Option.map_eq_some_iff.mp ht
    have he' : ∀ result, e ≠ .upstream qid result := fun result heq => he result (congrArg _ heq)
    exact .mk { s with resolver := v } v' (step_twins hw he' ⟨fuel, hv⟩ ⟨fuel', hv'⟩)
  | call now =>
    obtain ⟨w, hw⟩ := h
    simp only [Serving.apply] at hs ht
    rw [hw.calls] at ht
    cases hcalls : s.resolver.calls with
    | nil =>
      rw [hcalls] at hs
      simp at hs
    | cons c rest =>
      rw [hcalls] at hs ht
      obtain ⟨v, hv, rfl⟩ := Option.map_eq_some_iff.mp hs
      obtain ⟨v', hv', rfl⟩ := Option.map_eq_some_iff.mp ht
      have hv₀ := step_twins hw (by simp) ⟨fuel, hv⟩ ⟨fuel', hv'⟩
      exact callback_twins (.mk { s with resolver := v } v' hv₀) now c.1 c.2
  | reload lists | destroy =>
    obtain ⟨w, hw⟩ := h
    obtain rfl := Option.some.inj hs
    obtain rfl := Option.some.inj ht
    exact .mk _ w hw

/-! ### The callbacks of the reply -/

inductive FactAlike (asked : List Label) : Fact → Fact → Prop where
  | same (f : Fact) : FactAlike asked f f
  | responded (n : ℕ) {m m' : Message} (h : ResponsesAlike asked m m') :
      FactAlike asked (.responded n m) (.responded n m')

/-- The same callbacks are to be called, with answers that are alike. -/
structure Answering (asked : List Label) (s s' : Service) : Prop where
  processor : s.processor = s'.processor
  waiting : s.waiting = s'.waiting
  calls : Forall₂ (CallAlike asked) s.resolver.calls s'.resolver.calls
  log : Forall₂ (FactAlike asked) s.log s'.log

theorem Answering.respond (h : Answering asked s s') (n now : ℕ) (client : ClientInfo)
    (hm : ResponsesAlike asked m m') :
    Answering asked (s.respond n now client m) (s'.respond n now client m') := by
  obtain ⟨hprocessor, hout⟩ := send_alike s.processor now client hm
  unfold Service.respond
  rw [← h.processor]
  refine ⟨hprocessor, h.waiting, h.calls, .cons ?_ h.log⟩
  rcases Aligned.option_cases hout with ⟨ho, ho'⟩ | ⟨x, x', ho, ho', hxx⟩
  · rw [ho, ho']
    exact .same _
  · rw [ho, ho']
    exact .responded n hxx

theorem Answering.callback (h : Answering asked s s') (now cb : ℕ) {r r' : ResolveResult}
    (hr : ResponsesAlike asked r.response r'.response) :
    Answering asked (s.callback now cb (.ok r)) (s'.callback now cb (.ok r')) := by
  unfold Service.callback
  rw [← h.waiting]
  cases s.waiting cb with
  | none => exact h
  | some k =>
    dsimp only
    rw [← h.processor]
    exact h.respond k.query now k.client (answer_alike _ _ _ hr)

theorem step_call (s s' t t' : Service) (e : Serving.Event) (he : ∃ now, e = .call now)
    (h : Answering asked s t) (hs : Serving.Step cfg env s e s') (ht : Serving.Step cfg env t e t') :
    Answering asked s' t' := by
  obtain ⟨now, rfl⟩ := he
  obtain ⟨fuel, hs⟩ := hs
  obtain ⟨fuel', ht⟩ := ht
  have hqueue := h.calls
  simp only [Serving.apply, Machine.apply] at hs ht
  generalize hcalls : s.resolver.calls = calls at hs hqueue
  generalize hcalls' : t.resolver.calls = calls' at ht hqueue
  cases hqueue with
  | nil => simp at hs
  | @cons c c' rest rest' hc hrest =>
    obtain ⟨cb, result⟩ := c
    obtain ⟨cb', result'⟩ := c'
    obtain ⟨r, r', hcb, hresult', halike⟩ := hc
    obtain ⟨rfl, rfl⟩ := Prod.mk.inj hcb
    obtain rfl : result' = .ok r' := hresult'
    obtain rfl := Option.some.inj hs
    obtain rfl := Option.some.inj ht
    have hpopped : Answering asked
        { s with resolver := { s.resolver with calls := rest }.log (.called cb (.ok r)) }
        { t with resolver := { t.resolver with calls := rest' }.log (.called cb (.ok r')) } :=
      ⟨h.processor, h.waiting, hrest, h.log⟩
    exact hpopped.callback now cb halike

/-! ### What clients are sent -/

theorem mem_responses {log : List Fact} {n : ℕ} (h : m ∈ responses log n) : .responded n m ∈ log := by
  obtain ⟨f, hf, hfm⟩ := List.mem_filterMap.mp h
  cases f with
  | responded i m' =>
    simp only [responseTo] at hfm
    split_ifs at hfm with hi
    rw [← Option.some.inj hfm, ← hi]
    exact hf
  | _ => exact absurd hfm (by simp [responseTo])

theorem responses_alike (h : Answering asked s s') (n : ℕ) :
    Forall₂ (ResponsesAlike asked) (responses s.log n) (responses s'.log n) := by
  refine List.rel_filterMap (fun f f' hf => ?_) h.log
  cases hf with
  | same f =>
    cases responseTo n f with
    | none => exact .none
    | some m => exact .some (.refl m)
  | responded i h =>
    simp only [responseTo]
    split_ifs
    · exact .some h
    · exact .none

/-- The reply answers the clients that wait for it alike. -/
theorem answering_of_reply (h : ServiceTwins qid s s') (hsound : Sound s)
    (hm : RepliesAlike asked m m')
    (ht : Serving.Step cfg env s (.resolver (.upstream qid (.ok m))) t)
    (ht' : Serving.Step cfg env s' (.resolver (.upstream qid (.ok m'))) t') {cb : ℕ}
    {r : ResolveResult} (hanswered : (cb, .ok r) ∈ t.resolver.calls) : Answering asked t t' := by
  obtain ⟨w, hw⟩ := h
  obtain ⟨fuel, ht⟩ := ht
  obtain ⟨fuel', ht'⟩ := ht'
  simp only [Serving.apply] at ht ht'
  split_ifs at ht ht'
  obtain ⟨u, hu, rfl⟩ := Option.map_eq_some_iff.mp ht
  obtain ⟨u', hu', rfl⟩ := Option.map_eq_some_iff.mp ht'
  have hcalls := reply_alike hw hsound.resolver.wired hm ⟨fuel, hu⟩ ⟨fuel', hu'⟩ hanswered
  exact ⟨rfl, rfl, hcalls, Aligned.self FactAlike.same _⟩

theorem sound_run {es : List Serving.Event} (h : Run (Serving.Step cfg env) s es s')
    (hs : Sound s) : Sound s' :=
  h.invariant (P := Sound) (fun _ _ _ hs hstep => sound_step hs hstep) hs

theorem log_respond (s : Service) (n now : ℕ) (client : ClientInfo) (response : Message) :
    s.log ⊆ (s.respond n now client response).log := by
  obtain ⟨f, p, heq, -⟩ := respond_spec s n now client response
  rw [heq]
  exact List.subset_cons_self _ _

theorem log_handle (cfg : Config) (s : Service) (now later : ℕ) (query : Message)
    (client : ClientInfo) : .handled s.nextQuery ⟨s.processor, now, query, client⟩ :: s.log ⊆
      (s.handle cfg now later query client).log := by
  unfold Service.handle
  dsimp only
  generalize s.processor.handle now query client = x
  obtain ⟨p, decision⟩ := x
  cases decision with
  | drop | resolve q checkChain response => exact List.subset_cons_self _ _
  | respond response event =>
    exact log_respond { s with processor := p, nextQuery := _, log := _ } _ _ _ _

theorem log_step {e : Serving.Event} (h : Serving.Step cfg env s e s') : s.log ⊆ s'.log := by
  obtain ⟨fuel, h⟩ := h
  cases e with
  | handle now later query client =>
    simp only [Serving.apply] at h
    split_ifs at h
    rw [← Option.some.inj h]
    exact List.Subset.trans (List.subset_cons_self _ _) (log_handle cfg s now later query client)
  | resolver e =>
    simp only [Serving.apply] at h
    split_ifs at h
    obtain ⟨w, -, rfl⟩ := Option.map_eq_some_iff.mp h
    exact List.Subset.refl _
  | call now =>
    simp only [Serving.apply] at h
    split at h
    · simp at h
    · obtain ⟨w, -, rfl⟩ := Option.map_eq_some_iff.mp h
      unfold Service.callback
      dsimp only
      split
      · exact List.Subset.refl _
      · exact log_respond { s with resolver := w } _ _ _ _
  | reload lists | destroy =>
    rw [← Option.some.inj h]
    exact List.Subset.refl _

theorem log_run {es : List Serving.Event} (h : Run (Serving.Step cfg env) s es s') :
    s.log ⊆ s'.log :=
  h.invariant (P := fun x => s.log ⊆ x.log)
    (fun _ _ _ hs hstep => List.Subset.trans hs (log_step hstep)) (List.Subset.refl _)

/-- **The pattern does not show.** A query is sent in the letter case that the random numbers of `env₁`
make, in another run in that of `env₂`. Then the same things happen in both, up to the replies and
the callbacks that follow them. If the replies are alike but for letter case in suffixes of the name
asked, and answer the question, then a client that asked this name, or one below, is sent the same
bytes. -/
theorem pattern_hidden {env₁ env₂ : Random} {p : QueryProcessor} {sh : Shared}
    {es₀ es : List Serving.Event} {nows : List ℕ} {v₁ v₂ u₁ u₂ s₁ s₂ : Service} {w w₁ w₂ : World}
    {id cb n : ℕ} {task : Task} {address : Address} {transport : UpstreamTransport} {m₁ m₂ : Message}
    {result : ResolveResult} {arrival : Arrival} {bytes : List UInt8} {opts : BuildOptions}
    (hsent₁ : sendQuery cfg env₁ w id task address transport = (w₁, none))
    (hsent₂ : sendQuery cfg env₂ w id task address transport = (w₂, none))
    (hstart : Run (Serving.Step cfg env₁) { processor := p, resolver := { shared := sh } } es₀
      { s with resolver := w₁ })
    (hrun₁ : Run (Serving.Step cfg env) { s with resolver := w₁ } es v₁)
    (hrun₂ : Run (Serving.Step cfg env) { s with resolver := w₂ } es v₂)
    (hes : ∀ r, .resolver (.upstream w.nextQuery r) ∉ es)
    (hreply₁ : Serving.Step cfg env v₁ (.resolver (.upstream w.nextQuery (.ok m₁))) u₁)
    (hreply₂ : Serving.Step cfg env v₂ (.resolver (.upstream w.nextQuery (.ok m₂))) u₂)
    (halike : RepliesAlike task.qname.labels m₁ m₂)
    (hanswered : (cb, .ok result) ∈ u₁.resolver.calls)
    (hcalls₁ : Run (Serving.Step cfg env) u₁ (nows.map .call) s₁)
    (hcalls₂ : Run (Serving.Step cfg env) u₂ (nows.map .call) s₂)
    (hclient : .handled n arrival ∈ s₁.log) (hparsed : parse bytes = .ok arrival.query)
    (hname : (question arrival.query).qname.isSubdomainOf task.qname = true)
    (hopts : opts.compress = true) :
    (responses s₁.log n).map (fun m => build m opts) =
        (responses s₂.log n).map (fun m => build m opts) ∧
      (responses s₁.log n).map (fun m => buildTcp m opts) =
        (responses s₂.log n).map (fun m => buildTcp m opts) := by
  have htwins : ServiceTwins w.nextQuery v₁ v₂ := by
    refine Run.relation step_bystander (fun e he r heq => hes r (heq ▸ he)) hrun₁ hrun₂ ?_
    exact .mk { s with resolver := w₁ } w₂ (sendQuery_twins hsent₁ hsent₂)
  have hsound : Sound v₁ := sound_run hrun₁ (sound_run hstart (sound_start p sh))
  have hsound₁ : Sound s₁ := sound_run hcalls₁ (sound_step hsound hreply₁)
  have hanswering : Answering task.qname.labels s₁ s₂ := by
    refine Run.relation step_call (fun e he => ?_) hcalls₁ hcalls₂
      (answering_of_reply htwins hsound halike hreply₁ hreply₂ hanswered)
    obtain ⟨now, -, rfl⟩ := List.mem_map.mp he
    exact ⟨now, rfl⟩
  have hwf : MessageWf arrival.query := by
    have hreads := parse_reads bytes
    rw [hparsed] at hreads
    exact hreads.1
  -- the client has its own question back, with the name asked in it
  have hquestion : ∀ m ∈ responses s₁.log n, m.questions = arrival.query.questions := by
    intro m hm
    obtain ⟨a, ha, hechoes⟩ := (served_of hsound₁).own n m (mem_responses hm)
    rw [hechoes.questions, hsound₁.service.numbered ha hclient]
  have hbytes : ∀ m m', m.questions = arrival.query.questions ∧
      ResponsesAlike task.qname.labels m m' → build m opts = build m' opts ∧
      buildTcp m opts = buildTcp m' opts := by
    rintro m m' ⟨hm, hmm⟩
    have hsuffix : task.qname.labels <:+ (firstName m).labels := by
      unfold firstName
      rw [hm]
      exact Name.isSubdomainOf_iff.mp hname
    have hqs : ∀ q ∈ m.questions, NameWf q.qname := by
      rw [hm]
      exact hwf.questions
    exact ⟨build_alike (hmm.mono hsuffix) hqs hopts, buildTcp_alike (hmm.mono hsuffix) hqs hopts⟩
  have hall := (List.forall₂_and_left (p := fun m : Message => m.questions = _) _ _).mpr
    ⟨hquestion, responses_alike hanswering n⟩
  exact ⟨Aligned.map_eq (fun m m' h => (hbytes m m' h).1) hall,
    Aligned.map_eq (fun m m' h => (hbytes m m' h).2) hall⟩

def patternConfig : Config := { sampleConfig with use0x20 := true }

/-- A query for the mail servers of `a`. -/
def mailQuery (id : UInt16) (c : UInt8) : Message :=
  { header := { id, qdcount := 1 }, questions := [⟨⟨[[97]], [[c]]⟩, RRType.MX, kClassIN⟩] }

/-- The mail server of `a` is `m.a`; the name asked is written as in the query. -/
def mailReply (id : UInt16) (c : UInt8) : Message :=
  reply ⟨⟨[[97]], [[c]]⟩, RRType.MX, kClassIN⟩
    { header := { id, aa := true }
      answers := [{ name := ⟨[[97]], [[c]]⟩, type := RRType.MX, ttl := 60
                    rdata := .mx 10 ⟨[[109], [97]], [[109], [c]]⟩ }] }

def mailAsked : Service :=
  localService.handle patternConfig 0 0 (mailQuery 7 97) (localClient .udp)

/-- The resolver as the timer of the task fires. -/
def mailWaking : World :=
  { mailAsked.resolver with timers := without mailAsked.resolver.timers (some 1) }

/-- The call of `send_query` that follows. -/
def mailSending : Option (World × Task × Address × UpstreamTransport) := do
  let t ← mailWaking.tasks 1
  let (sh, t', next) ←
    step patternConfig (fun _ => 0) 16 mailWaking.shared { t with startTimer := none }
  match next with
  | .sendQuery address transport =>
    some ({ mailWaking.log (.wake 1 t.budget) with shared := sh }, t', address, transport)
  | _ => none

/-- It is sent with the random numbers of `env`. Another client asks the same in a capital letter, the
reply comes, and both are called back: the service then, and on the way there. -/
def mailRun (env : Random) (id : UInt16) (c : UInt8)
    (sending : World × Task × Address × UpstreamTransport) :
    Option (World × Service × Service × Service) :=
  let (w, t, address, transport) := sending
  match sendQuery patternConfig env w 1 t address transport with
  | (w', none) => do
    let v ← Run.applyAll (Serving.apply patternConfig (fun _ => 0) 16)
      { mailAsked with resolver := w' } [.handle 0 0 (mailQuery 8 65) (localClient .tcp)]
    let u ← Serving.apply patternConfig (fun _ => 0) 16 v
      (.resolver (.upstream w.nextQuery (.ok (mailReply id c))))
    let s ← Run.applyAll (Serving.apply patternConfig (fun _ => 0) 16) u ([0, 0].map .call)
    return (w', v, u, s)
  | _ => none

/-- Both clients are answered. -/
def mailAnswered (x : World × Service × Service × Service) : Bool :=
  x.2.2.1.resolver.calls.any (fun c => c.2.isOk) && (responses x.2.2.2.log 0).length == 1 &&
    (responses x.2.2.2.log 1).length == 1

theorem mailReplies_alike : RepliesAlike [[97]] (mailReply 0 97) (mailReply 1 65) := by
  have hname : NameAlike [[97]] ⟨[[97]], [[97]]⟩ ⟨[[97]], [[65]]⟩ :=
    ⟨rfl, fun i hi => absurd (List.drop_suffix i _) hi⟩
  have hserver : NameAlike [[97]] ⟨[[109], [97]], [[109], [97]]⟩ ⟨[[109], [97]], [[109], [65]]⟩ := by
    refine ⟨rfl, fun i hi => ?_⟩
    cases i with
    | zero => rfl
    | succ i => exact absurd (List.drop_suffix i [[97]]) hi
  exact ⟨rfl, .cons ⟨hname, rfl, rfl, rfl, rfl, .mx 10 hserver⟩ .nil, .nil, .nil⟩

/-- What `mailRun` went through. -/
theorem mailRun_run {env : Random} {id : UInt16} {c : UInt8} {w w' : World} {t : Task}
    {address : Address} {transport : UpstreamTransport} {v u s : Service}
    (h : mailRun env id c (w, t, address, transport) = some (w', v, u, s)) :
    sendQuery patternConfig env w 1 t address transport = (w', none) ∧
      Run (Serving.Step patternConfig fun _ => 0) { mailAsked with resolver := w' }
        [.handle 0 0 (mailQuery 8 65) (localClient .tcp)] v ∧
      Serving.Step patternConfig (fun _ => 0) v
        (.resolver (.upstream w.nextQuery (.ok (mailReply id c)))) u ∧
      Run (Serving.Step patternConfig fun _ => 0) u ([0, 0].map .call) s := by
  have hstep : ∀ s e s', Serving.apply patternConfig (fun _ => 0) 16 s e = some s' →
      Serving.Step patternConfig (fun _ => 0) s e s' := fun _ _ _ h => ⟨16, h⟩
  unfold mailRun at h
  dsimp only at h
  split at h
  · next w₁ hsent =>
    obtain ⟨v₁, hv, h⟩ := Option.bind_eq_some_iff.mp h
    obtain ⟨u₁, hu, h⟩ := Option.bind_eq_some_iff.mp h
    obtain ⟨s₁, hs, h⟩ := Option.bind_eq_some_iff.mp h
    cases h
    exact ⟨hsent, Run.of_applyAll hstep _ _ hv, hstep _ _ _ hu, Run.of_applyAll hstep _ _ hs⟩
  · exact absurd h (by simp)

/-- In one run of the server its timer sends the query. -/
theorem mailSending_run {w w' : World} {t : Task} {address : Address} {transport : UpstreamTransport}
    (h : mailSending = some (w, t, address, transport))
    (hsent : sendQuery patternConfig (fun _ => 0) w 1 t address transport = (w', none)) :
    Run (Serving.Step patternConfig fun _ => 0) localService
      [.handle 0 0 (mailQuery 7 97) (localClient .udp), .resolver (.timer 1)]
      { mailAsked with resolver := w' } := by
  have hhandle : Serving.Step patternConfig (fun _ => 0) localService
      (.handle 0 0 (mailQuery 7 97) (localClient .udp)) mailAsked := ⟨0, rfl⟩
  unfold mailSending at h
  obtain ⟨t₀, ht₀, h⟩ := Option.bind_eq_some_iff.mp h
  obtain ⟨⟨sh, t', next⟩, hturn, h⟩ := Option.bind_eq_some_iff.mp h
  have htimer : Machine.apply patternConfig (fun _ => 0) 16 mailAsked.resolver (.timer 1) = some w' := by
    refine apply_timer.mpr ⟨⟨0, .start 1⟩, rfl, rfl, Nat.zero_le _, ?_⟩
    have ht₁ : mailWaking.tasks 1 = some t₀ := ht₀
    show onTimer patternConfig _ 16 mailWaking _ = _
    simp only [onTimer, ht₁, hturn, Option.map_some]
    cases next with
    | sendQuery a tr =>
      obtain ⟨rfl, rfl, rfl, rfl⟩ : { mailWaking.log (.wake 1 t₀.budget) with shared := sh } = w ∧
          t' = t ∧ a = address ∧ tr = transport := by simpa using h
      rw [runTurn_sendQuery hsent]
    | finish r => simp at h
    | spawn q as => simp at h
  refine .cons hhandle (.cons ⟨16, ?_⟩ (.nil _))
  simp only [Serving.apply, htimer]
  rfl

theorem pattern_hidden_mail : ∃ x r₁ r₂, mailSending = some x ∧
    mailRun (fun _ => 0) 0 97 x = some r₁ ∧ mailRun (fun _ => 1) 1 65 x = some r₂ ∧
    mailAnswered r₁ = true ∧ mailAnswered r₂ = true ∧
    ((responses r₁.2.2.2.log 0).map fun m => build m {}) =
      (responses r₂.2.2.2.log 0).map fun m => build m {} := by
  have hrun : (mailSending.any fun x => (mailRun (fun _ => 0) 0 97 x).any mailAnswered &&
      (mailRun (fun _ => 1) 1 65 x).any mailAnswered && x.2.1.qname == letter 97) = true := by
    decide +kernel
  obtain ⟨⟨w, t, address, transport⟩, hsending, hruns⟩ := (Option.any_eq_true _ _).mp hrun
  obtain ⟨hruns, hqname⟩ := Bool.and_eq_true_iff.mp hruns
  obtain ⟨hrun₁, hrun₂⟩ := Bool.and_eq_true_iff.mp hruns
  obtain ⟨⟨w₁, v₁, u₁, s₁⟩, hr₁, hanswered₁⟩ := (Option.any_eq_true _ _).mp hrun₁
  obtain ⟨⟨w₂, v₂, u₂, s₂⟩, hr₂, hanswered₂⟩ := (Option.any_eq_true _ _).mp hrun₂
  refine ⟨_, _, _, hsending, hr₁, hr₂, hanswered₁, hanswered₂, ?_⟩
  obtain ⟨hsent₁, hes₁, hreply₁, hcalls₁⟩ := mailRun_run hr₁
  obtain ⟨hsent₂, hes₂, hreply₂, hcalls₂⟩ := mailRun_run hr₂
  have hlabels : t.qname.labels = [[97]] := Name.beq_iff.mp hqname
  obtain ⟨⟨cb, outcome⟩, hcall, hok⟩ : ∃ c ∈ u₁.resolver.calls, c.2.isOk = true := by
    unfold mailAnswered at hanswered₁
    simp only [Bool.and_eq_true, List.any_eq_true] at hanswered₁
    exact hanswered₁.1.1
  cases outcome with
  | error e => exact absurd hok (by simp [Except.isOk, Except.toBool])
  | ok result =>
    have hstart := mailSending_run hsending hsent₁
    have hclient : .handled 0 ⟨localService.processor, 0, mailQuery 7 97, localClient .udp⟩ ∈
        s₁.log := by
      have hlog := log_handle patternConfig localService 0 0 (mailQuery 7 97) (localClient .udp)
      exact log_run hcalls₁ (log_step hreply₁ (log_run hes₁ (hlog List.mem_cons_self)))
    have hparsed : parse [0, 7, 0, 0, 0, 1, 0, 0, 0, 0, 0, 0, 1, 97, 0, 0, 15, 0, 1] =
        .ok (mailQuery 7 97) := rfl
    refine (pattern_hidden hsent₁ hsent₂ hstart hes₁ hes₂ (by simp) hreply₁ hreply₂
      (by rw [hlabels]; exact mailReplies_alike) hcall hcalls₁ hcalls₂ hclient hparsed ?_ rfl).1
    exact Name.isSubdomainOf_iff.mpr (by rw [hlabels]; exact List.suffix_rfl)

/-! ### Where it shows

Cached CNAMEs come before what the reply says. If they are long enough, the name asked first stands
beyond the reach of a pointer, and the exchange of an MX record is written out in the case of the
reply. -/

/-- A name of 255 bytes on the wire. -/
def longName (i : ℕ) : Name :=
  let labels := [63, 63, 63, 61].map fun n => List.replicate n (UInt8.ofNat (128 + i))
  ⟨labels, labels⟩

/-- Each of 62 names stands for the next, and the last for `a`. -/
def longAlias (i : ℕ) : RR :=
  { name := longName i, type := RRType.CNAME, ttl := 60
    rdata := .cname (if i < 61 then longName (i + 1) else letter 97) }

def longConfig : Config := { patternConfig with maxCnameChain := 100 }

/-- The local server with the aliases in its cache. -/
def longService : Service where
  processor := localService.processor
  resolver.shared :=
    { sampleStart.shared with
      cache := (List.range 62).foldl (fun c i =>
        c.insert 0 ⟨longName i, kTypeCNAME, kClassIN⟩ [longAlias i] .answer 60) sampleStart.shared.cache }

/-- A client asks for the mail servers of the first name over TCP, and the reply about `a` comes. -/
def longEvents (id : UInt16) (c : UInt8) : List Serving.Event :=
  [.handle 0 0 { header := { id := 7 }, questions := [⟨longName 0, RRType.MX, kClassIN⟩] }
      (localClient .tcp),
    .resolver (.timer 1), .resolver (.upstream 1 (.ok (mailReply id c))), .call 0]

/-- The client is sent one response, which ends in `bytes`. -/
def endsIn (bytes : List UInt8) (s : Service) : Bool :=
  match responses s.log 0 with
  | [m] => decide (MessageWf m) && m.edns.isNone && decide ((extentOf m).size ≤ kMaxTcpMessage) &&
      (extentOf m).last == bytes
  | _ => false

theorem suffix_of_endsIn {bytes : List UInt8} (h : endsIn bytes s = true) :
    ∃ out, ((responses s.log 0).map fun m => buildTcp m) = [out] ∧ bytes <:+ out := by
  unfold endsIn at h
  split at h
  · next m hm =>
    simp only [Bool.and_eq_true, decide_eq_true_eq, Option.isNone_iff_eq_none, beq_iff_eq] at h
    obtain ⟨⟨⟨hwf, hedns⟩, hfits⟩, rfl⟩ := h
    exact ⟨buildTcp m, by rw [hm]; rfl, last_suffix_buildTcp hwf hedns hfits⟩
  · exact absurd h (by simp)

theorem pattern_shows_longChain : ∃ s₁ s₂ out₁ out₂,
    Run (Serving.Step longConfig fun _ => 0) longService (longEvents 0 97) s₁ ∧
      Run (Serving.Step longConfig fun _ => 1) longService (longEvents 1 65) s₂ ∧
      RepliesAlike [[97]] (mailReply 0 97) (mailReply 1 65) ∧
      ((responses s₁.log 0).map fun m => buildTcp m) = [out₁] ∧
      ((responses s₂.log 0).map fun m => buildTcp m) = [out₂] ∧
      [1, 109, 1, 97, 0] <:+ out₁ ∧ [1, 109, 1, 65, 0] <:+ out₂ ∧ out₁ ≠ out₂ := by
  have hruns : ((Run.applyAll (Serving.apply longConfig (fun _ => 0) 80) longService
        (longEvents 0 97)).any (endsIn [1, 109, 1, 97, 0]) &&
      (Run.applyAll (Serving.apply longConfig (fun _ => 1) 80) longService
        (longEvents 1 65)).any (endsIn [1, 109, 1, 65, 0])) = true := by decide +kernel
  obtain ⟨hrun₁, hrun₂⟩ := Bool.and_eq_true_iff.mp hruns
  obtain ⟨s₁, hs₁, hends₁⟩ := Run.exists_of_applyAll
    (fun _ _ _ h => (⟨80, h⟩ : Serving.Step longConfig _ _ _ _)) hrun₁
  obtain ⟨s₂, hs₂, hends₂⟩ := Run.exists_of_applyAll
    (fun _ _ _ h => (⟨80, h⟩ : Serving.Step longConfig _ _ _ _)) hrun₂
  obtain ⟨out₁, hout₁, hsuffix₁⟩ := suffix_of_endsIn hends₁
  obtain ⟨out₂, hout₂, hsuffix₂⟩ := suffix_of_endsIn hends₂
  refine ⟨s₁, s₂, out₁, out₂, hs₁, hs₂, mailReplies_alike, hout₁, hout₂, hsuffix₁, hsuffix₂, ?_⟩
  rintro rfl
  have hsuffix := List.suffix_of_suffix_length_le hsuffix₁ hsuffix₂ (by decide)
  exact absurd (hsuffix.eq_of_length rfl) (by decide)

end DNSentinel.Server.Pattern
