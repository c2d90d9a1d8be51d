import DNSentinel.Resolver.Sections
import DNSentinel.Server.Processor
import DNSentinel.Wire.ParserSound

/-! # Rebinding protection

What the filter takes out are the private addresses (`isPrivateAddress_iff`, over all addresses), from
the answers. The authority section of a result has none: it is a SOA, or records of type 0, whose data
the parser keeps as it is. So no response but the block lists' own has a private address, in any
section, unless its name is exempt. -/

namespace DNSentinel.Server.Rebinding

open DNSentinel.Types Lib.Runs Store.Model Wire.Builder Wire.WellFormed Wire.ParserSound
open Policy.Addresses Policy.RateLimits Resolver.Selection Resolver.Data Resolver.Core
open Resolver.Machine Resolver.Turns Resolver.Events Resolver.Provenance Resolver.Callbacks
open Resolver.Sections Processor
open Wire.Parser (parse)

/-! ### Private addresses -/

/-- The address `a.b.c.d` is in 0/8, 10/8, 100.64/10, 127/8, 169.254/16, 172.16/12 or 192.168/16. -/
def PrivateInet (a b : UInt8) : Prop :=
  a = 0 ∨ a = 10 ∨ (a = 100 ∧ 64 ≤ b ∧ b ≤ 127) ∨ a = 127 ∨ (a = 169 ∧ b = 254) ∨
    (a = 172 ∧ 16 ≤ b ∧ b ≤ 31) ∨ (a = 192 ∧ b = 168)

/-- The address is ::, ::1, or in fc00::/7, fe80::/10 or the private addresses of IPv4 mapped. -/
def PrivateInet6 (bytes : List UInt8) : Prop :=
  bytes = List.replicate 16 0 ∨ bytes = List.replicate 15 0 ++ [1] ∨
    (bytes.head? = some 0xFC ∨ bytes.head? = some 0xFD) ∨
    (∃ b rest, bytes = 0xFE :: b :: rest ∧ 0x80 ≤ b ∧ b ≤ 0xBF) ∨
    ∃ a b rest, bytes = List.replicate 10 0 ++ 0xFF :: 0xFF :: a :: b :: rest ∧ PrivateInet a b

/-- The record has a private address. -/
def Private (r : RR) : Prop :=
  match r.rdata with
  | .a addr => PrivateInet (addr >>> 24).toUInt8 (addr >>> 16).toUInt8
  | .aaaa addr => PrivateInet6 addr.val
  | _ => False

instance : DecidableRel PrivateInet := fun _ _ => inferInstanceAs (Decidable (_ ∨ _))

theorem and_full (x : UInt8) : x &&& 255 = x := by
  have hall : ∀ x : Fin 256, UInt8.ofNat x &&& 255 = UInt8.ofNat x := by decide +kernel
  have hx := hall ⟨x.toNat, x.toNat_lt⟩
  rwa [UInt8.ofNat_toNat] at hx

/-- Ranges of bytes, as masks. -/
theorem byte_ranges (b : UInt8) : (b &&& 192 = 64 ↔ 64 ≤ b ∧ b ≤ 127) ∧ (b &&& 240 = 16 ↔ 16 ≤ b ∧ b ≤ 31) ∧
    (b &&& 254 = 252 ↔ b = 252 ∨ b = 253) ∧ (b &&& 192 = 128 ↔ 128 ≤ b ∧ b ≤ 191) := by
  have hall : ∀ b : Fin 256,
      (UInt8.ofNat b &&& 192 = 64 ↔ 64 ≤ UInt8.ofNat b ∧ UInt8.ofNat b ≤ 127) ∧
      (UInt8.ofNat b &&& 240 = 16 ↔ 16 ≤ UInt8.ofNat b ∧ UInt8.ofNat b ≤ 31) ∧
      (UInt8.ofNat b &&& 254 = 252 ↔ UInt8.ofNat b = 252 ∨ UInt8.ofNat b = 253) ∧
      (UInt8.ofNat b &&& 192 = 128 ↔ 128 ≤ UInt8.ofNat b ∧ UInt8.ofNat b ≤ 191) := by
    decide +kernel
  have hb := hall ⟨b.toNat, b.toNat_lt⟩
  rwa [UInt8.ofNat_toNat] at hb

theorem contains_iff_mask {family family' : Family} {network bytes : List UInt8} {prefixLength : UInt8}
    {client : SockAddr} (h : ipAddress client = some ⟨family, bytes⟩) :
    Subnet.contains ⟨family', network, prefixLength⟩ client = true ↔
      family = family' ∧ mask prefixLength bytes = network := by
  unfold Subnet.contains
  rw [h]
  simp [IpAddress.network]

theorem inPrivateRange_inet {client : SockAddr} {a b c d : UInt8}
    (h : ipAddress client = some ⟨.inet, [a, b, c, d]⟩) :
    inPrivateRange client = true ↔ PrivateInet a b := by
  obtain ⟨hten, htwelve, -, -⟩ := byte_ranges b
  unfold inPrivateRange privateRanges PrivateInet
  simp only [List.any_cons, List.any_nil, Bool.or_eq_true, contains_iff_mask h]
  simp [mask, List.mapIdx_cons, and_full, hten, htwelve]

theorem inPrivateRange_inet6 {client : SockAddr} {bytes : List UInt8} (hlength : bytes.length = 16)
    (h : ipAddress client = some ⟨.inet6, bytes⟩) :
    inPrivateRange client = true ↔ bytes = List.replicate 16 0 ∨ bytes = List.replicate 15 0 ++ [1] ∨
      (bytes.head? = some 0xFC ∨ bytes.head? = some 0xFD) ∨
      ∃ b rest, bytes = 0xFE :: b :: rest ∧ 0x80 ≤ b ∧ b ≤ 0xBF := by
  match bytes, hlength with
  | [b₀, b₁, b₂, b₃, b₄, b₅, b₆, b₇, b₈, b₉, b₁₀, b₁₁, b₁₂, b₁₃, b₁₄, b₁₅], _ =>
    obtain ⟨-, -, hseven, -⟩ := byte_ranges b₀
    obtain ⟨-, -, -, hten⟩ := byte_ranges b₁
    unfold inPrivateRange privateRanges
    simp only [List.any_cons, List.any_nil, Bool.or_eq_true, contains_iff_mask h]
    simp [mask, List.mapIdx_cons, and_full, hseven, hten, List.replicate_succ]

theorem mapped_bytes {bytes : List UInt8} (hlength : bytes.length = 16) (h : isV4Mapped bytes = true) :
    ∃ a b c d, bytes = List.replicate 10 0 ++ [0xFF, 0xFF, a, b, c, d] := by
  have htake : bytes.take 12 = List.replicate 10 0 ++ [0xFF, 0xFF] := by simpa [isV4Mapped] using h
  have hdrop : (bytes.drop 12).length = 4 := by rw [List.length_drop, hlength]
  match hrest : bytes.drop 12, hdrop with
  | [a, b, c, d], _ =>
    refine ⟨a, b, c, d, ?_⟩
    rw [← List.take_append_drop 12 bytes, htake, hrest]
    rfl

/-- **What the filter takes out are the private addresses.** -/
theorem isPrivateAddress_iff (r : RR) : isPrivateAddress r.rdata = true ↔ Private r := by
  unfold Private
  cases r.rdata with
  | a addr => exact inPrivateRange_inet rfl
  | aaaa addr =>
    obtain ⟨bytes, hlength⟩ := addr
    show inPrivateRange (.inet6 ⟨bytes, hlength⟩) = true ↔ PrivateInet6 bytes
    unfold PrivateInet6
    by_cases hmapped : isV4Mapped bytes = true
    · obtain ⟨a, b, c, d, rfl⟩ : ∃ a b c d, bytes = List.replicate 10 0 ++ [0xFF, 0xFF, a, b, c, d] :=
        mapped_bytes hlength hmapped
      rw [inPrivateRange_inet (a := a) (b := b) (c := c) (d := d) (by simp [ipAddress, isV4Mapped])]
      simp [List.replicate_succ]
    · have hip : ipAddress (.inet6 ⟨bytes, hlength⟩) = some ⟨.inet6, bytes⟩ := if_neg hmapped
      have hnot : ¬ ∃ a b rest, bytes = List.replicate 10 0 ++ 0xFF :: 0xFF :: a :: b :: rest ∧
          PrivateInet a b := by
        rintro ⟨a, b, rest, rfl, -⟩
        exact hmapped (by simp [isV4Mapped, List.replicate_succ])
      rw [inPrivateRange_inet6 hlength hip, or_iff_left hnot]
  | _ => simp [isPrivateAddress]

/-! ### The authority section -/

variable {cfg : Config} {env : Random} {w : World} {sizes : Sizes} {cacheConfig : CacheConfig}
  {es : List Event} {trace : List Obs} {p p' : QueryProcessor} {query response m : Message}
  {client : ClientInfo} {q : Question} {checkChain : Bool} {now cb : ℕ} {r : ResolveResult}

theorem not_private_of_isSoa {x : RR} (h : isSoa x.rdata = true) : ¬ Private x := by
  unfold Private
  cases hdata : x.rdata <;> simp_all [isSoa]

/-- The data of a record of type 0 is kept as it is. -/
theorem not_private_of_typeZero {x : RR}
    (hparsed : ∀ id q m, .accepted id q m ∈ trace → ∃ data, parse data = .ok m)
    (h : TypeZero trace x) : ¬ Private x := by
  obtain ⟨hzero, id, q, m, x', haccepted, hmem, htype, hdata⟩ := h
  obtain ⟨data, hdata'⟩ := hparsed id q m haccepted
  have hwf : RRWf x' := by
    rcases parse_total data with ⟨e, he⟩ | ⟨m', hm', hwf, -⟩
    · rw [hdata'] at he
      cases he
    · rw [hdata'] at hm'
      obtain rfl := Except.ok.inj hm'
      rcases List.mem_append.mp hmem with hmem | hmem
      · rcases List.mem_append.mp hmem with hmem | hmem
        · exact hwf.answers x' hmem
        · exact hwf.authority x' hmem
      · exact hwf.additional x' hmem
  have hof := hwf.rdata.ofType
  rw [htype, hzero] at hof
  have hraw : ∃ bytes, x'.rdata = .raw bytes := by
    cases hx : x'.rdata with
    | raw bytes => exact ⟨bytes, rfl⟩
    | _ =>
      rw [hx] at hof
      simp [OfType, kNxdomainType, RRType.A, RRType.AAAA, RRType.NS, RRType.CNAME, RRType.PTR, RRType.MX,
        RRType.SOA, RRType.TXT] at hof
  obtain ⟨bytes, hx'⟩ := hraw
  rw [hx'] at hdata
  unfold Private
  cases hx : x.rdata <;> simp_all [BEq.beq, RData.beq]

/-- **No result of the resolver has a private address in its authority section.** -/
theorem authority_not_private (h : Run (Step cfg env) (start cfg sizes cacheConfig) es w)
    (hparsed : ∀ id q m, .accepted id q m ∈ w.trace → ∃ data, parse data = .ok m)
    (hcalled : .called cb (.ok r) ∈ w.trace) : ∀ x ∈ r.response.authority, ¬ Private x := by
  have horderly : Orderly w := orderly_run h
  obtain ⟨q, id, t, result, -, hfinished, -, -, hsame⟩ := horderly.answered cb _ hcalled
  cases result with
  | error e => exact False.elim hsame
  | ok r' =>
    have hresponse : r.response = { r'.response with questions := [q] } := hsame
    obtain ⟨l₁, l₂, htrace⟩ := List.append_of_mem hfinished
    have hsuffix : .finished id t (.ok r') :: l₂ <:+ w.trace := ⟨l₁, htrace.symm⟩
    rw [hresponse]
    intro x hx
    rcases ((sectioned_run h).finished id t r' l₂ hsuffix).authority with hproof | ⟨-, hzero⟩
    · exact not_private_of_isSoa (hproof.soa x hx).1
    · refine not_private_of_typeZero (fun id q m hm => hparsed id q m ?_) (hzero x hx)
      exact hsuffix.subset (List.mem_cons_of_mem _ hm)

/-! ### Responses -/

/-- Nothing in the response is a private address. -/
def Clean (m : Message) : Prop := ∀ x ∈ sections m, ¬ Private x

theorem clean_of_empty (h : sections m = []) : Clean m := fun x hx => by simp [h] at hx

theorem clean_send {later : ℕ} (h : Clean response) (hm : (p.send later client response).2 = some m) :
    Clean m := by
  unfold QueryProcessor.send at hm
  dsimp only at hm
  split_ifs at hm
  · split at hm
    · exact Option.some.inj hm ▸ h
    · obtain rfl := Option.some.inj hm
      exact clean_of_empty rfl
    · simp at hm
  · exact Option.some.inj hm ▸ h

/-- The client is told that the name does not exist. -/
structure Emptied (response : Message) : Prop where
  rcode : response.header.rcode = RCode.NXDomain
  records : sections response = []

/-- Rebinding protection leaves no address of what was found. -/
def LeavesNone (found : Message) : Prop :=
  (∃ x ∈ found.answers, Private x) ∧
    ∀ x ∈ found.answers, ¬ Private x → x.type ≠ RRType.A ∧ x.type ≠ RRType.AAAA

/-- What was found, with these answers. -/
structure Passed (found : Message) (kept : List RR) (response : Message) : Prop where
  rcode : response.header.rcode = found.header.rcode
  answers : response.answers = kept
  authority : response.authority = found.authority
  additional : response.additional = []

theorem sections_eq_nil : sections m = [] ↔ m.answers = [] ∧ m.authority = [] ∧ m.additional = [] := by
  simp [sections]

theorem isExempt_iff {f : RebindingFilter} {n : Name} :
    f.isExempt n = true ↔ ∃ zone ∈ f.exempt, n.isSubdomainOf zone = true := List.any_eq_true

/-- The records that are no private address, in order. -/
def keep (rrs : List RR) : List RR := rrs.filter fun x => !isPrivateAddress x.rdata

theorem mem_keep {rrs : List RR} {x : RR} : x ∈ keep rrs ↔ x ∈ rrs ∧ ¬ Private x := by
  rw [keep, List.mem_filter, ← isPrivateAddress_iff, Bool.not_eq_true', Bool.not_eq_true]

theorem leavesNone_iff (found : Message) : LeavesNone found ↔
    (!(found.answers.filter fun x => !!isPrivateAddress x.rdata).isEmpty &&
      !(keep found.answers).any fun x => x.type == RRType.A || x.type == RRType.AAAA) = true := by
  rw [Bool.and_eq_true, Bool.not_eq_true', List.isEmpty_eq_false_iff_exists_mem, Bool.not_eq_true',
    List.any_eq_false]
  refine and_congr (exists_congr fun x => ?_) (forall_congr' fun x => ?_)
  · rw [List.mem_filter, Bool.not_not, isPrivateAddress_iff]
  · rw [mem_keep, and_imp]
    simp

/-- The private addresses are taken out, and everything else is left in order. -/
theorem realAnswer_filtered (henabled : p.checks.rebinding.enabled = true)
    (hexempt : p.checks.rebinding.isExempt (question response).qname = false)
    (hnew : sections response = []) (found : Message) :
    (LeavesNone found → Emptied (p.realAnswer response found).response) ∧
    (¬ LeavesNone found → Passed found (keep found.answers) (p.realAnswer response found).response) := by
  have hstrip : p.checks.rebinding.strip (question response).qname found.answers =
      (keep found.answers, found.answers.filter fun x => !!isPrivateAddress x.rdata) := by
    rw [RebindingFilter.strip, henabled, hexempt]
    exact List.partition_eq_filter_filter
  unfold QueryProcessor.realAnswer
  dsimp only
  rw [hstrip, leavesNone_iff]
  constructor
  · intro hnone
    rw [if_pos hnone]
    exact ⟨rfl, hnew⟩
  · intro hsome
    rw [if_neg hsome]
    exact ⟨rfl, rfl, rfl, (sections_eq_nil.mp hnew).2.2⟩

/-- An exempt name is answered with what was found. -/
theorem realAnswer_exempt (hexempt : p.checks.rebinding.isExempt (question response).qname = true)
    (hnew : sections response = []) (found : Message) :
    Passed found found.answers (p.realAnswer response found).response := by
  have hstrip : p.checks.rebinding.strip (question response).qname found.answers =
      (found.answers, []) := by
    rw [RebindingFilter.strip, hexempt, Bool.or_true]
    rfl
  unfold QueryProcessor.realAnswer
  dsimp only
  rw [hstrip]
  exact ⟨rfl, rfl, rfl, (sections_eq_nil.mp hnew).2.2⟩

/-- An answer that is not the block lists' is the resolver's. -/
theorem answer_unblocked (h : (p.answer checkChain response (.ok r)).block = none) :
    p.answer checkChain response (.ok r) = p.realAnswer response r.response := by
  unfold QueryProcessor.answer at h ⊢
  dsimp only at h ⊢
  split at h
  · simp at h
  · rfl

theorem handle_respond_empty (h : (p.handle now query client).2 = .respond response none) :
    sections response = [] := by
  have hdeny : ∀ {action : DenyAction}, deny action query = .respond response none →
      sections response = [] := by
    intro action hdeny
    cases action with
    | drop => simp [deny] at hdeny
    | refuse =>
      obtain ⟨rfl, -⟩ := Decision.respond.inj hdeny
      rfl
  unfold QueryProcessor.handle at h
  dsimp only at h
  split_ifs at h
  · exact hdeny h
  · exact hdeny h
  · unfold QueryProcessor.handleAllowed at h
    dsimp only at h
    split at h
    · obtain ⟨rfl, -⟩ := Decision.respond.inj h
      rfl
    · split_ifs at h
      · obtain ⟨-, hevent⟩ := Decision.respond.inj h
        simp at hevent

/-- What the callback of a resolution answers, unless the block lists do. -/
structure Protected (p : QueryProcessor) (q : Question) (response : Message) (result : Outcome) : Prop where
  /-- no private address, unless the name is exempt -/
  clean : (∀ zone ∈ p.checks.rebinding.exempt, q.qname.isSubdomainOf zone = false) → Clean response
  /-- nothing else is taken out, unless no address is left -/
  minimal : (∀ zone ∈ p.checks.rebinding.exempt, q.qname.isSubdomainOf zone = false) →
    ∀ r, result = .ok r → (LeavesNone r.response → Emptied response) ∧
      (¬ LeavesNone r.response → Passed r.response (keep r.response.answers) response)
  exempt : (∃ zone ∈ p.checks.rebinding.exempt, q.qname.isSubdomainOf zone = true) →
    ∀ r, result = .ok r → Passed r.response r.response.answers response

/-- **Rebinding protection is complete and minimal**, for every query that is resolved, every outcome of
its resolution in any run of the resolver, and whatever lists are in use by then; and what is sent has no
private address either. Answers given without the resolver have no records, the block lists' apart. -/
theorem rebinding_protects (h : Run (Step cfg env) (start cfg sizes cacheConfig) es w)
    (hparsed : ∀ qid m, .upstream qid (.ok m) ∈ es → ∃ data, parse data = .ok m)
    {result : Outcome} (hcalled : .called cb result ∈ w.trace)
    (hhandle : (p.handle now query client).2 = .resolve q checkChain response)
    (henabled : p'.checks.rebinding.enabled = true)
    (hblock : (p'.answer checkChain response result).block = none) :
    Protected p' q (p'.answer checkChain response result).response result ∧
    (∀ later m, (∀ zone ∈ p'.checks.rebinding.exempt, q.qname.isSubdomainOf zone = false) →
      (p'.send later client (p'.answer checkChain response result).response).2 = some m → Clean m) ∧
    ∀ now query client response, (p.handle now query client).2 = .respond response none →
      sections response = [] := by
  obtain ⟨-, rfl, rfl, -⟩ := handle_resolve hhandle
  have hreceived : ∀ id q m, .accepted id q m ∈ w.trace → ∃ data, parse data = .ok m := by
    intro id q m hm
    obtain ⟨qid, hqid⟩ := accepted_upstream h hm
    exact hparsed qid m hqid
  have hnew : ∀ rcode, sections (makeResponse query rcode) = [] := fun _ => rfl
  have hasked : question (makeResponse query) = question query := rfl
  have hexempt : (∀ zone ∈ p'.checks.rebinding.exempt,
      (question query).qname.isSubdomainOf zone = false) →
        p'.checks.rebinding.isExempt (question (makeResponse query)).qname = false := by
    intro hnone
    rw [← Bool.not_eq_true, isExempt_iff, hasked]
    rintro ⟨zone, hzone, hsub⟩
    rw [hnone zone hzone] at hsub
    cases hsub
  have hprotected : Protected p' (question query)
      (p'.answer checkChain (makeResponse query) result).response result := by
    cases result with
    | error e =>
      refine ⟨fun _ => clean_of_empty rfl, fun _ r hr => ?_, fun _ r hr => ?_⟩ <;> cases hr
    | ok r =>
      rw [answer_unblocked hblock]
      refine ⟨fun hnone => ?_, ?_, ?_⟩
      · obtain ⟨hempty, hpassed⟩ := realAnswer_filtered henabled (hexempt hnone) (hnew _) r.response
        by_cases hleft : LeavesNone r.response
        · exact clean_of_empty (hempty hleft).records
        · obtain ⟨-, hanswers, hauthority, hadditional⟩ := hpassed hleft
          intro x hx
          rw [sections, hanswers, hauthority, hadditional, List.append_nil] at hx
          rcases List.mem_append.mp hx with hx | hx
          · exact (mem_keep.mp hx).2
          · exact authority_not_private h hreceived hcalled x hx
      · rintro hnone _ ⟨⟩
        exact realAnswer_filtered henabled (hexempt hnone) (hnew _) r.response
      · rintro hzone _ ⟨⟩
        have hin : p'.checks.rebinding.isExempt (question (makeResponse query)).qname = true :=
          isExempt_iff.mpr hzone
        exact realAnswer_exempt hin (hnew _) r.response
  refine ⟨hprotected, fun later m hnone hm => clean_send (hprotected.clean hnone) hm, ?_⟩
  exact fun now query client response => handle_respond_empty

/-- A client on this machine asks for the address of `a`. -/
def askedFor : Message := { questions := [⟨letter 97, RRType.A, kClassIN⟩] }

/-- The filter is on, with the exempt names it has by default. -/
def filtering : QueryProcessor := { checks := { rateLimit := .create { qps := 0 } } }

/-- The response that `a` has the addresses 10.0.0.1 and 8.8.8.8. -/
def mixedReply : List UInt8 :=
  [0, 0, 0x84, 0, 0, 1, 0, 2, 0, 0, 0, 0, 1, 97, 0, 0, 1, 0, 1,
    0xc0, 12, 0, 1, 0, 1, 0, 0, 0, 60, 0, 4, 10, 0, 0, 1,
    0xc0, 12, 0, 1, 0, 1, 0, 0, 0, 60, 0, 4, 8, 8, 8, 8]

def received (data : List UInt8) : Except UpstreamError Message :=
  match parse data with
  | .ok m => .ok m
  | .error _ => .error .networkError

def mixedEvents : List Event :=
  [.resolve ⟨letter 97, RRType.A, kClassIN⟩, .timer 1, .upstream 1 (received mixedReply), .call]

theorem rebinding_protects_mixed :
    ∃ w r, Run (Step sampleConfig fun _ => 0) sampleStart mixedEvents w ∧
      .called 0 (.ok r) ∈ w.trace ∧ r.response.answers.length = 2 ∧
      (filtering.answer true (makeResponse askedFor) (.ok r)).response.answers.length = 1 ∧
      Protected filtering ⟨letter 97, RRType.A, kClassIN⟩
        (filtering.answer true (makeResponse askedFor) (.ok r)).response (.ok r) := by
  obtain ⟨w, hrun, hw⟩ := exists_run mixedEvents (P := fun w => (firstAnswer w).any fun r =>
    let a := filtering.answer true (makeResponse askedFor) (.ok r)
    r.response.answers.length == 2 && a.response.answers.length == 1 && a.block.isNone)
    (by decide +kernel)
  obtain ⟨r, hr, hout⟩ := (Option.any_eq_true _ _).mp hw
  simp only [Bool.and_eq_true, beq_iff_eq, Option.isNone_iff_eq_none] at hout
  obtain ⟨⟨htwo, hone⟩, hblock⟩ := hout
  have hcalled := called_of_firstAnswer hr
  have hparsed : ∀ qid m, .upstream qid (.ok m) ∈ mixedEvents → ∃ data, parse data = .ok m := by
    intro qid m hm
    simp only [mixedEvents, List.mem_cons, reduceCtorEq, List.not_mem_nil, or_false, false_or,
      Event.upstream.injEq] at hm
    refine ⟨mixedReply, ?_⟩
    have hreceived := hm.2.symm
    unfold received at hreceived
    split at hreceived
    · next m' hm' =>
      obtain rfl := Except.ok.inj hreceived
      exact hm'
    · cases hreceived
  have hhandle : (filtering.handle 0 askedFor { addr := .inet 0x7F000001 }).2 =
      .resolve ⟨letter 97, RRType.A, kClassIN⟩ true (makeResponse askedFor) := by rfl
  exact ⟨w, r, hrun, hcalled, htwo, hone,
    (rebinding_protects hrun hparsed hcalled hhandle rfl hblock).1⟩

end DNSentinel.Server.Rebinding
