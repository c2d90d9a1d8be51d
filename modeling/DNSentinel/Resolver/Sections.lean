import DNSentinel.Resolver.Callbacks
import DNSentinel.Resolver.Results

/-! # The sections of a result

The answers of a resolution are the CNAMEs it followed, one leading to the next, and then the records of
the last name. The authority section proves a negative answer: it is one SOA, wherever that was found. Only
a client that asks for type 0 can make it something else, for the cache has NXDOMAIN under that type. -/

namespace DNSentinel.Resolver.Sections

open DNSentinel.Types Lib.Runs Store.Model Selection Data Resolver.Core Machine Turns Effects Phases
open Wiring Events Callbacks Provenance Results

variable {cfg : Config} {env : Random} {w : World} {a b : Phase × World} {sizes : Sizes}
  {cacheConfig : CacheConfig} {es : List Event} {trace : List Obs} {t : Task} {m : Message}

/-! ### The authority section -/

/-- At most one SOA, of a zone that `n` is in. -/
structure Proof (n : Name) (authority : List RR) : Prop where
  single : authority.length ≤ 1
  soa : ∀ r ∈ authority, isSoa r.rdata = true ∧ n.isSubdomainOf r.name = true

/-- A record of type 0, from a response that was accepted. -/
def TypeZero (trace : List Obs) (r : RR) : Prop :=
  r.type = kNxdomainType ∧ ∃ id q response r', .accepted id q response ∈ trace ∧
    r' ∈ sections response ∧ r'.type = r.type ∧ (r.rdata == r'.rdata) = true

/-- The records found under the type of NXDOMAIN, or of a negative entry. -/
theorem proof_of_madeBy {key : CacheKey} {e : CacheEntry} {i : Insert} (h : MadeBy key e i)
    (hreceived : Received trace i.source) (hkind : key.qtype = kNxdomainType ∨ e.isNegative = true) :
    Proof key.name e.records ∨
      Wanted trace kNxdomainType ∧ ∀ r ∈ e.records, TypeZero trace r := by
  obtain ⟨hname, htype, -⟩ := CacheKey.beq_iff.mp h.key
  cases hneg : i.negative with
  | true =>
    obtain ⟨ttl, hrecords⟩ := h.records
    refine .inl ⟨?_, fun r hr => ?_⟩
    · rw [hrecords, List.length_map, h.backed.single hneg]
    · obtain ⟨r', hr', heq⟩ := h.mem hr
      obtain ⟨hsoa, hsub⟩ := h.ok.soa hneg r' hr'
      rw [heq]
      exact ⟨hsoa, (Name.isSubdomainOf_congr (Name.beq_iff.mpr hname)) ▸ hsub⟩
  | false =>
    have hzero : key.qtype = kNxdomainType :=
      hkind.resolve_right fun hnegative => by simp [h.negative.symm.trans hneg] at hnegative
    have hkey : i.key.qtype = kNxdomainType := htype.trans hzero
    refine .inr ⟨h.backed.reserved hneg hkey ▸ hreceived.wanted, fun r hr => ?_⟩
    obtain ⟨r', hr', heq⟩ := h.mem hr
    obtain ⟨r'', hr'', hsame⟩ := h.ok.received r' hr'
    obtain ⟨-, htype'', -, -, hdata⟩ := RR.beq_iff.mp hsame
    have hzero' : r'.type = kNxdomainType := by
      rcases (h.ok.owner hneg r' hr').2 with htype' | ⟨hns, -⟩
      · exact htype'.trans hkey
      · exact absurd (hns.symm.trans hkey) (by decide)
    obtain ⟨id, -, -, -, q, earlier, haccepted, -⟩ := hreceived.accepted
    rw [heq]
    exact ⟨hzero', id, q, _, r'', haccepted.subset List.mem_cons_self, hr'', htype''.symm, hdata⟩

/-! ### Every result -/

/-- The sections of a result. -/
structure Sectioned (trace : List Obs) (t : Task) (m : Message) : Prop where
  answers : ∃ rest, m.answers = t.chain ++ rest ∧
    (∀ r ∈ rest, OwnedBy t.qname t.question.qtype r) ∧
    (m.header.rcode = RCode.NXDomain ∨ m.authority ≠ [] → rest = [])
  authority : Proof t.qname m.authority ∨
    Wanted trace kNxdomainType ∧ ∀ r ∈ m.authority, TypeZero trace r

theorem sectioned_done (hsh : SharedOk a.2.shared) (hs : SourcesOk a) {id : ℕ} {wake : Wake}
    {t₀ t : Task} {sh : Shared} {r : ResolveResult} (hphase : a.1 = .running id wake)
    (hstep : StepOk cfg wake a.2.shared t₀ (sh, t, .finish (.ok r))) :
    Sectioned a.2.trace t r.response := by
  obtain ⟨rest, hanswers, hok⟩ := turn_result hstep.ok
  refine ⟨⟨rest, hanswers, fun x hx => ?_, hok.negative⟩, ?_⟩
  · rcases hok.answers x hx with howned | ⟨e, hit, huse, hmem⟩
    · exact howned
    · obtain ⟨i, -, hmade⟩ := hit_recorded hsh hit
      exact hmade.owned huse hmem
  · rcases hok.authority with ⟨hsingle, hsoa⟩ | ⟨key, e, hit, hrecords, hname, hkind⟩
    · exact .inl ⟨hsingle, hsoa⟩
    · obtain ⟨i, hi, hmade⟩ := hit_recorded hsh hit
      have hreceived : Received a.2.trace i.source := by
        rcases hi with hi | hsrc
        · exact (hs.inserts i hi).2
        · exact hs.running id wake _ hphase hsrc
      rw [hrecords, ← show key.name = t.qname from hname]
      exact proof_of_madeBy hmade hreceived hkind

theorem sectioned_run (h : Run (Step cfg env) (start cfg sizes cacheConfig) es w) :
    ResultsOk Sectioned (.idle, w) :=
  results_run (sources_start ..) (fun _ _ hw hab _ => sources_micro hw hab)
    (fun _ _ _ _ _ _ _ hsh hs hphase _ hstep => sectioned_done hsh hs hphase hstep) h

/-- The answers for `q`: CNAMEs that lead from its name to `last`, then what `last` has of its type, and
nothing with a negative answer, which one SOA proves. -/
structure Answers (q : Question) (m : Message) (chain rest : List RR) (last : Name) : Prop where
  answers : m.answers = chain ++ rest
  linked : Linked q.qname chain last
  owned : ∀ r ∈ rest, OwnedBy last q.qtype r
  negative : m.header.rcode = RCode.NXDomain ∨ m.authority ≠ [] → rest = []
  proof : Proof last m.authority

/-- A task's result, in a run in which no client asks for type 0. -/
theorem answers_of_finished (h : Run (Step cfg env) (start cfg sizes cacheConfig) es w)
    (hzero : ∀ cb q, .resolve cb q ∈ w.trace → q.qtype ≠ kNxdomainType) {id : ℕ} {r : ResolveResult}
    (hfinished : .finished id t (.ok r) ∈ w.trace) :
    ∃ rest, Answers t.question r.response t.chain rest t.qname := by
  obtain ⟨l₁, l₂, htrace⟩ := List.append_of_mem hfinished
  have hsuffix : .finished id t (.ok r) :: l₂ <:+ w.trace := ⟨l₁, htrace.symm⟩
  have hchain := ((chained_run h).finished id t r l₂ hsuffix).1
  obtain ⟨⟨rest, hanswers, howned, hnegative⟩, hauthority⟩ :=
    (sectioned_run h).finished id t r l₂ hsuffix
  refine ⟨rest, hanswers, hchain.linked, howned, hnegative, hauthority.resolve_right ?_⟩
  rintro ⟨hwanted | ⟨cb, q, hq, htype⟩, -⟩
  · exact absurd hwanted (by decide)
  · exact hzero cb q (hsuffix.subset (List.mem_cons_of_mem _ hq)) htype

/-- **Answers form a linked chain of CNAMEs**, in every run in which no client asks for type 0: what a
client is told, and what a task finishes with, sub-queries included. -/
theorem answers_linked (h : Run (Step cfg env) (start cfg sizes cacheConfig) es w)
    (hzero : ∀ cb q, .resolve cb q ∈ w.trace → q.qtype ≠ kNxdomainType) :
    (∀ cb q r, .resolve cb q ∈ w.trace → .called cb (.ok r) ∈ w.trace →
      ∃ chain rest last, Answers q r.response chain rest last) ∧
    ∀ id t r, .finished id t (.ok r) ∈ w.trace →
      ∃ chain rest last, Answers t.question r.response chain rest last := by
  refine ⟨fun cb q r hq hcalled => ?_, fun id t r hfinished => ?_⟩
  · have horderly : Orderly w := orderly_run h
    obtain ⟨q', id, t, result, hq', hfinished, -, hkey, hsame⟩ := horderly.answered cb _ hcalled
    obtain rfl := horderly.ownQuestion cb _ _ hq hq'
    cases result with
    | error e => exact False.elim hsame
    | ok r' =>
      obtain ⟨rest, hfound⟩ := answers_of_finished h hzero hfinished
      have hresponse : r.response = { r'.response with questions := [q] } := hsame
      obtain ⟨hname, hrest⟩ := Prod.mk.inj hkey
      obtain ⟨htype, -⟩ := Prod.mk.inj hrest
      refine ⟨t.chain, rest, t.qname, ?_, hfound.linked.congr ?_, ?_, ?_, ?_⟩
      · rw [hresponse]
        exact hfound.answers
      · exact hname.symm
      · intro x hx
        have howned := hfound.owned x hx
        exact ⟨howned.name, howned.type.trans htype.symm, howned.cls⟩
      · rw [hresponse]
        exact hfound.negative
      · rw [hresponse]
        exact hfound.proof
  · obtain ⟨rest, hfound⟩ := answers_of_finished h hzero hfinished
    exact ⟨_, _, _, hfound⟩

/-- `a` is asked for, and is an alias of `c`. -/
def aliasedOnce : List Event :=
  [.resolve ⟨letter 97, RRType.A, kClassIN⟩, .timer 1,
    .upstream 1 (.ok (reply ⟨letter 97, RRType.A, kClassIN⟩
      { header := { aa := true }
        answers := [{ name := letter 97, type := RRType.CNAME, rdata := .cname (letter 99), ttl := 60 },
          { name := letter 99, rdata := .a 7, ttl := 60 }] })), .call]

/-- The answer the first client was given last of all. -/
def firstAnswer (w : World) : Option ResolveResult :=
  match w.trace with
  | .called 0 (.ok r) :: _ => some r
  | _ => none

theorem called_of_firstAnswer {r : ResolveResult} (h : firstAnswer w = some r) :
    .called 0 (.ok r) ∈ w.trace := by
  unfold firstAnswer at h
  split at h
  · next r' rest htrace =>
    obtain rfl := Option.some.inj h
    rw [htrace]
    exact List.mem_cons_self
  · cases h

theorem answers_linked_aliased :
    ∃ w r chain rest last, Run (Step sampleConfig fun _ => 0) sampleStart aliasedOnce w ∧
      .called 0 (.ok r) ∈ w.trace ∧ r.response.answers.length = 2 ∧
      Answers ⟨letter 97, RRType.A, kClassIN⟩ r.response chain rest last := by
  obtain ⟨w, hrun, hw⟩ := exists_run aliasedOnce
    (P := fun w => (firstAnswer w).any (fun r => r.response.answers.length == 2) &&
      (w.trace.filterMap resolvedOf).all fun c => c.2.qtype != kNxdomainType) (by decide +kernel)
  rw [Bool.and_eq_true, List.all_eq_true] at hw
  obtain ⟨r, hr, htwo⟩ := (Option.any_eq_true _ _).mp hw.1
  have hcalled := called_of_firstAnswer hr
  have hzero : ∀ cb q, .resolve cb q ∈ w.trace → q.qtype ≠ kNxdomainType :=
    fun cb q hq => bne_iff_ne.mp (hw.2 (cb, q) (List.mem_filterMap.mpr ⟨_, hq, rfl⟩))
  have hrun' : Run (Step sampleConfig fun _ => 0) { shared := sampleStart.shared } _ w := hrun
  obtain ⟨chain, rest, last, hanswers⟩ :=
    (answers_linked hrun hzero).1 0 _ r (resolve_mem hrun') hcalled
  exact ⟨w, r, chain, rest, last, hrun, hcalled, beq_iff_eq.mp htwo, hanswers⟩

end DNSentinel.Resolver.Sections
