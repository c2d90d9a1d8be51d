import DNSentinel.Resolver.Core
import DNSentinel.Store.SharedCase

/-! # Replies in another letter case

A task handles one of two replies that are alike but for suffixes of `asked`. Up to its end it takes the
same turns with either, since the resolver compares names without regard to case; where one reply answers
the question, the other does so too, and the answers are alike. Letter case lives on in the cache and in
the task (`SharedAlike`, `TaskAlike`), where a CNAME of the reply is followed and the rest of the answer
comes from the cache. -/

namespace DNSentinel.Resolver.SharedCase

open DNSentinel.Types Lib Store.Model Store.SharedCase Wire.SharedCase Selection Data Resolver.Core
open List (Forall₂)

variable {cfg : Config} {env : Random} {asked : List Label} {a b : Name} {r r' : RR}
  {rrs rrs' : List RR} {m m' : Message} {sh sh' : Shared} {t t' : Task}

/-! ### What a reply says -/

theorem NameAlike.isSubdomainOf {z z' : Name} (h : NameAlike asked a b) (hz : NameAlike asked z z') :
    a.isSubdomainOf z = b.isSubdomainOf z' := by
  rw [Bool.eq_iff_iff, Name.isSubdomainOf_iff, Name.isSubdomainOf_iff, h.labels, hz.labels]

theorem isSoa_alike {d d' : RData} (h : RdataAlike asked d d') : isSoa d = isSoa d' := by
  cases h <;> rfl

theorem isNs_alike {d d' : RData} (h : RdataAlike asked d d') : isNs d = isNs d' := by
  cases h <;> rfl

theorem collect_alike (h : RrsAlike asked rrs rrs') (hname : NameAlike asked a b) (type : UInt16) :
    RrsAlike asked (collect rrs a type) (collect rrs' b type) := by
  refine Aligned.filter (fun x x' hx => ?_) h
  rw [hx.cls, hx.type, hx.name.beq, hname.beq_right]

theorem findSoa_alike (h : RrsAlike asked rrs rrs') (hname : NameAlike asked a b) :
    Option.Rel (RrAlike asked) (findSoa rrs a) (findSoa rrs' b) := by
  refine Aligned.find? (fun x x' hx => ?_) h
  rw [isSoa_alike hx.rdata, NameAlike.isSubdomainOf hname hx.name]

/-- A proof of a negative answer is there in both replies or in neither. -/
theorem toList_alike {x x' : Option RR} (h : Option.Rel (RrAlike asked) x x') :
    RrsAlike asked x.toList x'.toList := by
  cases h with
  | none => exact .nil
  | some h => exact .cons h .nil

theorem referralNs_alike (h : RrsAlike asked rrs rrs') :
    RrsAlike asked (referralNs rrs) (referralNs rrs') := by
  refine List.rel_foldl (P := RrsAlike asked) (fun ns ns' hns x x' hx => ?_) .nil h
  rw [hx.cls, isNs_alike hx.rdata]
  split_ifs
  · exact hns
  · cases hns with
    | nil => exact .cons hx .nil
    | cons hfirst hrest =>
      dsimp only
      rw [hx.name.beq, hfirst.name.beq_right]
      split_ifs
      · exact List.rel_append (.cons hfirst hrest) (.cons hx .nil)
      · exact .cons hfirst hrest

theorem aa_alike (h : RepliesAlike asked m m') : m.header.aa = m'.header.aa := by
  have haa := congrArg Header.aa h.header
  exact haa

theorem tc_alike (h : RepliesAlike asked m m') : m.header.tc = m'.header.tc := by
  have htc := congrArg Header.tc h.header
  exact htc

theorem rcode_alike (h : RepliesAlike asked m m') : m.header.rcode = m'.header.rcode := by
  have hrcode := congrArg Header.rcode h.header
  exact hrcode

/-- A name with its case put back is the same in both. -/
theorem restoreCase_alike (h : RepliesAlike asked m m') (n : Name) :
    RepliesAlike asked (restoreCase m n) (restoreCase m' n) := by
  have hrestore : ∀ x x', RrAlike asked x x' → RrAlike asked
      (if x.name == n then { x with name := { x.name with originalCase := n.originalCase } } else x)
      (if x'.name == n then { x' with name := { x'.name with originalCase := n.originalCase } }
        else x') := by
    intro x x' hx
    rw [hx.name.beq]
    split_ifs
    · refine ⟨⟨hx.name.labels, fun i _ => ?_⟩, hx.type, hx.cls, hx.ttl, hx.trust, hx.rdata⟩
      simp only [Name.asWritten, hx.name.labels]
    · exact hx
  exact ⟨h.header, List.rel_map hrestore h.answers, List.rel_map hrestore h.authority,
    List.rel_map hrestore h.additional⟩

theorem filterToBailiwick_alike (h : RepliesAlike asked m m') (zone : Name) :
    RepliesAlike asked (filterToBailiwick m zone) (filterToBailiwick m' zone) := by
  have hinside : ∀ x x', RrAlike asked x x' →
      x.name.isSubdomainOf zone = x'.name.isSubdomainOf zone := fun x x' hx =>
    NameAlike.isSubdomainOf hx.name (.refl zone)
  exact ⟨h.header, Aligned.filter hinside h.answers, Aligned.filter hinside h.authority,
    Aligned.filter hinside h.additional⟩

/-! ### Tasks -/

/-- The cache, up to letter case. -/
structure SharedAlike (asked : List Label) (sh sh' : Shared) : Prop where
  now : sh.now = sh'.now
  cache : CacheAlike asked sh.cache sh'.cache

/-- What a task answers with, up to letter case. -/
structure TaskAlike (asked : List Label) (t t' : Task) : Prop where
  question : t.question = t'.question
  cnameHops : t.cnameHops = t'.cnameHops
  qname : NameAlike asked t.qname t'.qname
  chain : RrsAlike asked t.chain t'.chain

/-- Where the first call ends a task with an answer, so does the second, with one alike. -/
def Concludes (asked : List Label) (n n' : Next) : Prop :=
  ∀ r, n = .finish (.ok r) → ∃ r', n' = .finish (.ok r') ∧ ResponsesAlike asked r.response r'.response

theorem TaskAlike.refl (t : Task) : TaskAlike asked t t := ⟨rfl, rfl, .refl _, rrsAlike_refl _⟩

/-- The keys under which the cache is asked about the name of a task. -/
theorem TaskAlike.key (h : TaskAlike asked t t') (type : UInt16) :
    ((⟨t.qname, type, kClassIN⟩ : CacheKey) == ⟨t'.qname, type, kClassIN⟩) = true :=
  CacheKey.beq_iff.mpr ⟨h.qname.labels, rfl, rfl⟩

theorem SharedAlike.lookup (h : SharedAlike asked sh sh') {key key' : CacheKey}
    (hkey : (key == key') = true) :
    Option.Rel (EntryAlike asked) (sh.lookup key).1 (sh'.lookup key').1 ∧
      SharedAlike asked (sh.lookup key).2 (sh'.lookup key').2 := by
  unfold Shared.lookup
  dsimp only
  rw [← h.now]
  obtain ⟨hentry, hcache⟩ := h.cache.lookup hkey sh.now
  exact ⟨hentry, rfl, hcache⟩

theorem SharedAlike.insert (h : SharedAlike asked sh sh') {key key' : CacheKey}
    (hkey : (key == key') = true) (hr : RrsAlike asked rrs rrs') (source source' : Source)
    (trust : TrustRank) (ttl : UInt32) (negative : Bool) :
    SharedAlike asked (sh.insert source key rrs trust ttl negative)
      (sh'.insert source' key' rrs' trust ttl negative) := by
  refine ⟨h.now, ?_⟩
  unfold Shared.insert
  dsimp only
  rw [← h.now]
  exact h.cache.insert hkey hr _ _ _ _

theorem followCname_alike (cfg : Config) (ht : TaskAlike asked t t') (hr : RrAlike asked r r') :
    Option.Rel (TaskAlike asked) (followCname cfg t r) (followCname cfg t' r') := by
  have hfollow : ∀ {target target' : Name}, NameAlike asked target target' →
      Option.Rel (TaskAlike asked)
        (if cfg.maxCnameChain < t.cnameHops + 1 then none
          else some { t with cnameHops := t.cnameHops + 1, chain := t.chain ++ [r], qname := target })
        (if cfg.maxCnameChain < t'.cnameHops + 1 then none
          else some { t' with cnameHops := t'.cnameHops + 1, chain := t'.chain ++ [r']
                              qname := target' }) := by
    intro target target' htarget
    rw [← ht.cnameHops]
    split_ifs
    · exact .none
    · exact .some ⟨ht.question, rfl, htarget, List.rel_append ht.chain (.cons hr .nil)⟩
  unfold followCname
  obtain ⟨-, -, -, -, -, hdata⟩ := hr
  generalize r.rdata = d at hdata ⊢
  generalize r'.rdata = d' at hdata ⊢
  cases hdata with
  | cname h => exact hfollow h
  | same d =>
    cases d with
    | cname target => exact hfollow (.refl target)
    | _ => exact .none
  | _ => exact .none

theorem outcome_alike (ht : TaskAlike asked t t') {answers answers' authority authority' : List RR}
    (hanswers : RrsAlike asked answers answers') (hauthority : RrsAlike asked authority authority')
    (rcode : RCode) : Concludes asked (.finish (outcome t rcode answers authority))
      (.finish (outcome t' rcode answers' authority')) := by
  intro r hr
  obtain rfl := Except.ok.inj (Next.finish.inj hr)
  refine ⟨_, rfl, rfl, ?_, rfl, List.rel_append ht.chain hanswers, hauthority, .nil⟩
  dsimp only
  rw [ht.question]

theorem concludes_of_error {e : ResolveError} {n' : Next} :
    Concludes asked (.finish (.error e)) n' := by
  intro r hr
  exact absurd (Next.finish.inj hr) (by simp)

/-! ### From the cache -/

/-- Asking another server is no answer yet. -/
theorem nextServerLoop_open : ∀ (rounds : ℕ) (sh : Shared) (t : Task) (r : ResolveResult),
    (nextServerLoop cfg env rounds sh t).2.2 ≠ .finish (.ok r)
  | 0, _, _, _ => by simp [nextServerLoop]
  | rounds + 1, sh, t, r => by
    unfold nextServerLoop
    dsimp only
    split
    · simp
    · split
      · simp
      · split
        · exact nextServerLoop_open rounds _ _ r
        · simp

theorem concludes_nextServer {n' : Next} : Concludes asked (nextServer cfg env sh t).2.2 n' :=
  fun r hr => absurd hr (nextServerLoop_open _ sh t r)

theorem usableCname_alike {e e' : Option CacheEntry} (h : Option.Rel (EntryAlike asked) e e') :
    Option.Rel (RrAlike asked) (usableCname e) (usableCname e') := by
  cases h with
  | none => exact .none
  | some h =>
    unfold usableCname
    dsimp only
    rw [h.isNegative, h.trust]
    split_ifs
    · exact .none
    · exact Aligned.head? h.records

theorem filter_alike {e e' : Option CacheEntry} (h : Option.Rel (EntryAlike asked) e e') :
    Option.Rel (EntryAlike asked) (e.filter fun e => e.isNegative || e.trust == .answer)
      (e'.filter fun e => e.isNegative || e.trust == .answer) := by
  cases h with
  | none => exact .none
  | some h =>
    rw [Option.filter_some, Option.filter_some, h.isNegative, h.trust]
    split_ifs
    · exact .some h
    · exact .none

/-- **The rest of the answer comes from the cache in both runs, or in neither.** -/
theorem stepLoop_alike : ∀ (fuel : ℕ) {sh sh' : Shared} {t t' : Task} {turn turn' : Turn},
    SharedAlike asked sh sh' → TaskAlike asked t t' → stepLoop cfg env fuel sh t = some turn →
    stepLoop cfg env fuel sh' t' = some turn' → Concludes asked turn.2.2 turn'.2.2
  | 0, _, _, _, _, _, _, _, _, h, _ => by simp [stepLoop] at h
  | fuel + 1, sh, sh', t, t', turn, turn', hsh, ht, h, h' => by
    have hqtype : t.question.qtype = t'.question.qtype := by rw [ht.question]
    unfold stepLoop at h h'
    dsimp only at h h'
    obtain ⟨hdenied, hsh⟩ := hsh.lookup (ht.key kNxdomainType)
    generalize sh.lookup ⟨t.qname, kNxdomainType, kClassIN⟩ = x at hdenied hsh h
    generalize sh'.lookup ⟨t'.qname, kNxdomainType, kClassIN⟩ = x' at hdenied hsh h'
    obtain ⟨nx, sh⟩ := x
    obtain ⟨nx', sh'⟩ := x'
    cases hdenied with
    | some hnx =>
      obtain rfl := Option.some.inj h
      obtain rfl := Option.some.inj h'
      exact outcome_alike ht .nil hnx.records _
    | none =>
    dsimp only at h h' hsh
    rw [← hqtype] at h'
    obtain ⟨hhit, hsh⟩ := hsh.lookup (ht.key t.question.qtype)
    generalize sh.lookup ⟨t.qname, t.question.qtype, kClassIN⟩ = x at hhit hsh h
    generalize sh'.lookup ⟨t'.qname, t.question.qtype, kClassIN⟩ = x' at hhit hsh h'
    obtain ⟨e, sh⟩ := x
    obtain ⟨e', sh'⟩ := x'
    dsimp only at hhit hsh h h'
    rcases Aligned.option_cases (filter_alike hhit) with ⟨hmiss, hmiss'⟩ | ⟨e, e', he, he', hee⟩
    · rw [hmiss] at h
      rw [hmiss'] at h'
      dsimp only at h h'
      split_ifs at h h' with hcname
      · obtain rfl := Option.some.inj h
        exact concludes_nextServer
      obtain ⟨hentry, hsh⟩ := hsh.lookup (ht.key kTypeCNAME)
      generalize sh.lookup ⟨t.qname, kTypeCNAME, kClassIN⟩ = x at hentry hsh h
      generalize sh'.lookup ⟨t'.qname, kTypeCNAME, kClassIN⟩ = x' at hentry hsh h'
      obtain ⟨c, sh⟩ := x
      obtain ⟨c', sh'⟩ := x'
      dsimp only at hentry hsh h h'
      rcases Aligned.option_cases (usableCname_alike hentry) with ⟨hr, hr'⟩ | ⟨r, r', hr, hr', hrr⟩
      · rw [hr] at h
        obtain rfl := Option.some.inj h
        exact concludes_nextServer
      · rw [hr] at h
        rw [hr'] at h'
        dsimp only at h h'
        rcases Aligned.option_cases (followCname_alike cfg ht hrr) with
          ⟨hu, -⟩ | ⟨u, u', hu, hu', huu⟩
        · rw [hu] at h
          obtain rfl := Option.some.inj h
          exact concludes_of_error
        · rw [hu] at h
          rw [hu'] at h'
          have hserve : SharedAlike asked (sh.serve .cname ⟨t.qname, kTypeCNAME, kClassIN⟩ [r])
            (sh'.serve .cname ⟨t'.qname, kTypeCNAME, kClassIN⟩ [r']) := ⟨hsh.now, hsh.cache⟩
          exact stepLoop_alike fuel hserve huu h h'
    · rw [he] at h
      rw [he'] at h'
      dsimp only at h h'
      rw [← hee.isNegative] at h'
      split_ifs at h h'
      · obtain rfl := Option.some.inj h
        obtain rfl := Option.some.inj h'
        exact outcome_alike ht .nil hee.records _
      · obtain rfl := Option.some.inj h
        obtain rfl := Option.some.inj h'
        exact outcome_alike ht hee.records .nil _

theorem step_alike {fuel : ℕ} {turn turn' : Turn} (hsh : SharedAlike asked sh sh')
    (ht : TaskAlike asked t t') (h : step cfg env fuel sh t = some turn)
    (h' : step cfg env fuel sh' t' = some turn') : Concludes asked turn.2.2 turn'.2.2 := by
  unfold step at h h'
  rw [← ht.question] at h'
  split_ifs at h h'
  · obtain rfl := Option.some.inj h
    exact concludes_of_error
  · exact stepLoop_alike fuel hsh ht h h'

/-! ### The reply -/

/-- How the loop over the answer section ends with either reply. -/
inductive LoopAlike (asked : List Label) :
    Shared × Task × (Next ⊕ Bool) → Shared × Task × (Next ⊕ Bool) → Prop where
  | ended (sh sh' : Shared) (t t' : Task) {n n' : Next} (h : Concludes asked n n') :
      LoopAlike asked (sh, t, .inl n) (sh', t', .inl n')
  | on {sh sh' : Shared} {t t' : Task} (hsh : SharedAlike asked sh sh') (ht : TaskAlike asked t t')
      (followed : Bool) : LoopAlike asked (sh, t, .inr followed) (sh', t', .inr followed)

variable {source source' : Source} {rank : TrustRank}

theorem answerLoop_alike (hm : RrsAlike asked m.answers m'.answers) :
    ∀ (fuel : ℕ) {followed : Bool} {sh sh' : Shared} {t t' : Task}
      {x x' : Shared × Task × (Next ⊕ Bool)}, SharedAlike asked sh sh' → TaskAlike asked t t' →
    answerLoop cfg source m rank fuel followed sh t = some x →
    answerLoop cfg source' m' rank fuel followed sh' t' = some x' → LoopAlike asked x x'
  | 0, _, _, _, _, _, _, _, _, _, h, _ => by simp [answerLoop] at h
  | fuel + 1, followed, sh, sh', t, t', x, x', hsh, ht, h, h' => by
    have hqtype : t.question.qtype = t'.question.qtype := by rw [ht.question]
    have hrrset := collect_alike hm ht.qname t.question.qtype
    have hcname := collect_alike hm ht.qname kTypeCNAME
    unfold answerLoop at h h'
    dsimp only at h h'
    rw [← hqtype, ← Aligned.isEmpty hrrset] at h'
    split_ifs at h h' with hanswer hnone
    · obtain rfl := Option.some.inj h
      obtain rfl := Option.some.inj h'
      exact .ended _ _ _ _ (outcome_alike ht hrrset .nil _)
    · obtain rfl := Option.some.inj h
      obtain rfl := Option.some.inj h'
      exact .ended _ _ _ _ (outcome_alike ht hrrset .nil _)
    · obtain rfl := Option.some.inj h
      obtain rfl := Option.some.inj h'
      exact .on hsh ht followed
    · generalize collect m.answers t.qname kTypeCNAME = found at hcname h
      generalize collect m'.answers t'.qname kTypeCNAME = found' at hcname h'
      cases hcname with
      | nil =>
        obtain rfl := Option.some.inj h
        obtain rfl := Option.some.inj h'
        exact .on hsh ht followed
      | @cons c c' _ _ hc _ =>
        dsimp only at h h'
        rcases Aligned.option_cases (followCname_alike cfg ht hc) with
          ⟨hu, hu'⟩ | ⟨u, u', hu, hu', huu⟩
        · rw [hu] at h
          rw [hu'] at h'
          obtain rfl := Option.some.inj h
          obtain rfl := Option.some.inj h'
          exact .ended _ _ _ _ concludes_of_error
        · rw [hu] at h
          rw [hu', ← hc.ttl] at h'
          exact answerLoop_alike hm fuel (hsh.insert (ht.key _) (.cons hc .nil) _ _ _ _ _) huu h h'

theorem handleNegative_alike (hm : RepliesAlike asked m m') (ht : TaskAlike asked t t') :
    Concludes asked (handleNegative cfg env source m sh t).2.2
      (handleNegative cfg env source' m' sh' t').2.2 := by
  have haa := aa_alike hm
  have hrcode := rcode_alike hm
  have hsoa := findSoa_alike hm.authority ht.qname
  have hproof := toList_alike hsoa
  have hns : RrsAlike asked (if m.header.aa then [] else referralNs m.authority)
      (if m'.header.aa then [] else referralNs m'.authority) := by
    rw [← haa]
    split_ifs
    · exact .nil
    · exact referralNs_alike hm.authority
  have hsome : (findSoa m.authority t.qname).isSome = (findSoa m'.authority t'.qname).isSome := by
    rcases Aligned.option_cases hsoa with ⟨hr, hr'⟩ | ⟨r, r', hr, hr', -⟩
    · rw [hr, hr']
    · rw [hr, hr', Option.isSome_some, Option.isSome_some]
  unfold handleNegative
  dsimp only
  generalize (if m.header.aa = true then [] else referralNs m.authority) = ns at hns ⊢
  generalize (if m'.header.aa = true then [] else referralNs m'.authority) = ns' at hns ⊢
  by_cases hnx : m.header.rcode = RCode.NXDomain
  · rw [if_pos hnx, if_pos (hrcode ▸ hnx)]
    exact outcome_alike ht .nil hproof _
  · have hnx' : ¬ m'.header.rcode = RCode.NXDomain := hrcode ▸ hnx
    rw [if_neg hnx, if_neg hnx']
    cases hns with
    | nil =>
      dsimp only
      rw [← haa, ← hsome]
      split
      · exact outcome_alike ht .nil hproof _
      · exact concludes_nextServer
    | cons =>
      dsimp only
      split
      · exact concludes_nextServer
      · split
        · exact concludes_of_error
        · exact concludes_nextServer

theorem handleFiltered_alike (hm : RepliesAlike asked m m') {fuel rtt : ℕ} {turn turn' : Turn}
    (h : handleFiltered cfg env fuel source m sh t rtt = some turn)
    (h' : handleFiltered cfg env fuel source' m' sh t rtt = some turn') :
    Concludes asked turn.2.2 turn'.2.2 := by
  have haa := aa_alike hm
  obtain ⟨x, hx, h⟩ := Option.bind_eq_some_iff.mp h
  obtain ⟨x', hx', h'⟩ := Option.bind_eq_some_iff.mp h'
  rw [← haa] at hx'
  have hrated : SharedAlike asked (rate sh t (usable m t) rtt) (rate sh t (usable m' t) rtt) :=
    ⟨rfl, .refl _⟩
  have hloop := answerLoop_alike hm.answers fuel hrated (.refl t) hx hx'
  cases hloop with
  | ended _ _ _ _ hn =>
    obtain rfl := Option.some.inj h
    obtain rfl := Option.some.inj h'
    exact hn
  | on hsh ht followed =>
    cases followed with
    | true => exact step_alike hsh ht h h'
    | false =>
      obtain rfl := Option.some.inj h
      obtain rfl := Option.some.inj h'
      exact handleNegative_alike hm ht

/-- **A task answers alike with replies that are alike.** -/
theorem onResponse_alike (hm : RepliesAlike asked m m') {fuel : ℕ} {turn turn' : Turn}
    (h : onResponse cfg env fuel sh t (.ok m) = some turn)
    (h' : onResponse cfg env fuel sh t (.ok m') = some turn') :
    Concludes asked turn.2.2 turn'.2.2 := by
  have hcase : RepliesAlike asked (if t.sent0x20 then restoreCase m t.qname else m)
      (if t.sent0x20 then restoreCase m' t.qname else m') := by
    split_ifs
    · exact restoreCase_alike hm t.qname
    · exact hm
  unfold onResponse handleResponse at h h'
  dsimp only at h h'
  generalize (if t.sent0x20 = true then restoreCase m t.qname else m) = x at hcase h
  generalize (if t.sent0x20 = true then restoreCase m' t.qname else m') = x' at hcase h'
  rw [← tc_alike hcase, ← rcode_alike hcase] at h'
  split_ifs at h h'
  · obtain rfl := Option.some.inj h
    exact concludes_nextServer
  · obtain rfl := Option.some.inj h
    exact fun r hr => absurd hr (by simp)
  · obtain rfl := Option.some.inj h
    exact concludes_nextServer
  · exact handleFiltered_alike (filterToBailiwick_alike hcase t.zone) h h'

end DNSentinel.Resolver.SharedCase
