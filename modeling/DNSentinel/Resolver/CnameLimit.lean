import DNSentinel.Resolver.Results
import DNSentinel.Resolver.Termination
import DNSentinel.Store.Recall

/-! # The limit on CNAME chains

The hop counter and the configured limit are both 8 bits wide. Below 255 the counter counts: a task
never follows more CNAMEs than configured, and the two loops that follow them end. A limit of 255 is
never exceeded by the counter, which wraps, and a CNAME that points to itself is followed forever. -/

namespace DNSentinel.Resolver.CnameLimit

open DNSentinel.Types Lib.Pairs Lib.Runs Store.Model Store.Contents Store.Calls Store.Recall
open Selection Data Resolver.Core Machine Turns Effects Phases Wiring Events Results Termination

variable {cfg : Config} {env : Random} {src : Option Source} {w : World} {a b : Phase × World}

/-! ### Below 255 -/

/-- The counter counts the CNAMEs followed, and is within the limit. -/
structure HopsOk (cfg : Config) (t : Task) : Prop where
  counted : t.chain.length = t.cnameHops.toNat
  within : t.cnameHops ≤ cfg.maxCnameChain

theorem HopsOk.follow (hmax : cfg.maxCnameChain ≠ 255) {t : Task} (h : HopsOk cfg t) (r : RR)
    (target : Name) (hlimit : t.cnameHops + 1 ≤ cfg.maxCnameChain) :
    HopsOk cfg { t with cnameHops := t.cnameHops + 1, chain := t.chain ++ [r], qname := target } := by
  refine ⟨?_, hlimit⟩
  have hle : t.cnameHops.toNat ≤ cfg.maxCnameChain.toNat := h.within
  have hbig := cfg.maxCnameChain.toNat_lt
  have hne : cfg.maxCnameChain.toNat ≠ 255 := fun he => hmax (UInt8.toNat_inj.mp he)
  have hadd : (t.cnameHops + 1).toNat = t.cnameHops.toNat + 1 := by
    rw [UInt8.toNat_add]
    exact Nat.mod_eq_of_lt (by simp; omega)
  rw [hadd, List.length_append, h.counted]
  rfl

theorem moves_hops (hmax : cfg.maxCnameChain ≠ 255) {a b : Shared × Task} (h : Moves cfg src a b)
    (ha : HopsOk cfg a.2) : HopsOk cfg b.2 := by
  refine moves_keep (P := fun c => HopsOk cfg c.2) (fun c d hcd hc => ?_) h ha
  cases hcd with
  | follow sh t r target hlimit | followCached sh t e r target hlimit =>
    exact HopsOk.follow hmax hc r target hlimit
  | _ => exact ⟨hc.counted, hc.within⟩

theorem turn_hops (hmax : cfg.maxCnameChain ≠ 255) {a : Shared × Task} {turn : Turn}
    (h : TurnOk cfg src a turn) (ha : HopsOk cfg a.2) : HopsOk cfg turn.2.1 := by
  obtain ⟨t, hmoves, ht | ht⟩ := turn_moves h <;> rw [ht]
  · exact (moves_hops hmax hmoves ha :)
  · have hops := moves_hops hmax hmoves ha
    exact ⟨hops.counted, hops.within⟩

theorem hops_micro (hmax : cfg.maxCnameChain ≠ 255) (hab : Micro cfg env a b)
    (h : ∀ i t, a.2.tasks i = some t → HopsOk cfg t) :
    ∀ i t, b.2.tasks i = some t → HopsOk cfg t := by
  refine tasks_micro (P := fun _ => HopsOk cfg) hab ?_ ?_ ?_ ?_ h
  · intro _ t t' ht hf
    simp only [findings, Prod.mk.injEq] at hf
    obtain ⟨-, -, hchain, -, -, -, -, -, hhops⟩ := hf
    exact ⟨by rw [hchain, hhops, ht.counted], by rw [hhops]; exact ht.within⟩
  · intro t hf _ _
    simp only [findings, Prod.mk.injEq] at hf
    obtain ⟨-, -, hchain, -, -, -, -, -, hhops⟩ := hf
    exact ⟨by rw [hchain, hhops]; rfl, by rw [hhops]; exact UInt8.zero_le⟩
  · intro wake t₀ sh t q ancestry _ i _ u hu
    simp only [findings, Prod.mk.injEq] at hu
    obtain ⟨-, -, hchain, -, -, -, -, -, hhops⟩ := hu
    exact ⟨by rw [hchain, hhops]; rfl, by rw [hhops]; exact UInt8.zero_le⟩
  · exact fun _ _ _ _ hstep ht => turn_hops hmax hstep.ok ht

/-! ### At 255 -/

theorem follows (hmax : cfg.maxCnameChain = 255) (t : Task) {r : RR} {target : Name}
    (hdata : r.rdata = .cname target) : followCname cfg t r =
      some { t with cnameHops := t.cnameHops + 1, chain := t.chain ++ [r], qname := target } := by
  have hle : ¬ cfg.maxCnameChain < t.cnameHops + 1 := by
    rw [hmax, UInt8.not_lt, UInt8.le_iff_toNat_le]
    exact Nat.le_of_lt_succ (UInt8.toNat_lt _)
  unfold followCname
  rw [hdata]
  exact if_neg hle

/-- The response has a CNAME for the name that points back to it, and nothing else. -/
theorem answerLoop_diverges (hmax : cfg.maxCnameChain = 255) {source : Source} {m : Message}
    {rank : TrustRank} {n : Name} {r : RR} (hdata : r.rdata = .cname n)
    (hcname : collect m.answers n kTypeCNAME = [r]) (hnone : collect m.answers n kTypeA = []) :
    ∀ (fuel : ℕ) (followed : Bool) (sh : Shared) (t : Task), t.qname = n →
      t.question.qtype = kTypeA → answerLoop cfg source m rank fuel followed sh t = none
  | 0, _, _, _, _, _ => rfl
  | fuel + 1, followed, sh, t, hqname, hqtype => by
    have hnot : kTypeA ≠ kTypeCNAME := by decide
    unfold answerLoop
    dsimp only
    rw [hqname, hqtype, hnone, hcname]
    simp only [List.isEmpty_nil, Bool.not_true, Bool.false_eq_true, if_false, if_neg hnot,
      follows hmax t hdata]
    exact answerLoop_diverges hmax hdata hcname hnone fuel true _ _ rfl hqtype

/-- The cache has an authoritative CNAME for `n` that points back to `n`, and nothing else. -/
structure Looped (sh : Shared) (n : Name) : Prop where
  sharded : Sharded sh.cache
  denied : content sh.cache ⟨n, kNxdomainType, kClassIN⟩ = none
  address : content sh.cache ⟨n, kTypeA, kClassIN⟩ = none
  aliased : ∃ e r, content sh.cache ⟨n, kTypeCNAME, kClassIN⟩ = some e ∧ sh.now < e.expiresAt ∧
    e.isNegative = false ∧ e.trust = .answer ∧ e.records = [r] ∧ r.rdata = .cname n

theorem Looped.lookup {sh : Shared} {n : Name} (h : Looped sh n) (key : CacheKey) :
    Looped (sh.lookup key).2 n := by
  have hcontent : ∀ k, content (sh.lookup key).2.cache k = content sh.cache k :=
    fun k => content_lookup h.sharded
  have hsharded : Sharded (perform sh.cache sh.now (.lookup key)) := perform_sharded h.sharded
  refine ⟨hsharded, ?_, ?_, ?_⟩ <;> rw [hcontent]
  · exact h.denied
  · exact h.address
  · exact h.aliased

theorem lookup_absent {sh : Shared} {key : CacheKey} (h : content sh.cache key = none) :
    sh.lookup key = (none, (sh.lookup key).2) := by
  have hnone : (sh.cache.lookup sh.now key).1 = none := by
    rw [lookup_none_iff, live, h]
    rfl
  exact Prod.ext hnone rfl

theorem Looped.hit {sh : Shared} {n : Name} (h : Looped sh n) :
    ∃ r, usableCname (sh.lookup ⟨n, kTypeCNAME, kClassIN⟩).1 = some r ∧ r.rdata = .cname n := by
  obtain ⟨d, r, hd, hlive, hneg, htrust, hrecords, hdata⟩ := h.aliased
  obtain ⟨e, he, hserved⟩ := lookup_of_content hd hlive
  have hneg' : e.isNegative = false := (congrArg CacheEntry.isNegative hserved).trans hneg
  have htrust' : e.trust = .answer := (congrArg CacheEntry.trust hserved).trans htrust
  have hrecords' : e.records = (Cache.served sh.now d).records :=
    (congrArg CacheEntry.records hserved :)
  rw [Cache.served, hrecords, List.map_singleton] at hrecords'
  refine ⟨{ r with ttl := UInt32.ofNat ((d.expiresAt - sh.now) / kSecond) }, ?_, hdata⟩
  change usableCname (sh.cache.lookup sh.now _).1 = _
  rw [he, usableCname, hneg', htrust', hrecords']
  rfl

/-- `step` never gets past the cached CNAME. -/
theorem stepLoop_diverges (hmax : cfg.maxCnameChain = 255) {n : Name} :
    ∀ (fuel : ℕ) (sh : Shared) (t : Task), Looped sh n → t.qname = n →
      t.question.qtype = kTypeA → stepLoop cfg env fuel sh t = none
  | 0, _, _, _, _, _ => rfl
  | fuel + 1, sh, t, h, hqname, hqtype => by
    have hnot : kTypeA ≠ kTypeCNAME := by decide
    have hdenied := lookup_absent h.denied
    have hasked := lookup_absent (h.lookup ⟨n, kNxdomainType, kClassIN⟩).address
    have hloop := (h.lookup ⟨n, kNxdomainType, kClassIN⟩).lookup ⟨n, kTypeA, kClassIN⟩
    obtain ⟨r, hr, hdata⟩ := hloop.hit
    have hnext := hloop.lookup ⟨n, kTypeCNAME, kClassIN⟩
    unfold stepLoop
    dsimp only
    rw [hqname, hqtype, hdenied]
    dsimp only
    rw [hasked]
    simp only [Option.filter_none, if_neg hnot, hr, follows hmax t hdata]
    exact stepLoop_diverges hmax fuel _ _ ⟨hnext.sharded, hnext.denied, hnext.address, hnext.aliased⟩
      rfl hqtype

/-- `handle_response` never gets past the CNAME in the response. -/
theorem onResponse_diverges (hmax : cfg.maxCnameChain = 255) {m : Message} {t : Task} {r : RR}
    (hcase : t.sent0x20 = false) (htc : m.header.tc = false) (hcode : m.header.rcode = RCode.NoError)
    (hdata : r.rdata = .cname t.qname) (hqtype : t.question.qtype = kTypeA)
    (hcname : collect (filterToBailiwick m t.zone).answers t.qname kTypeCNAME = [r])
    (hnone : collect (filterToBailiwick m t.zone).answers t.qname kTypeA = []) (fuel : ℕ)
    (sh : Shared) : onResponse cfg env fuel sh t (.ok m) = none := by
  have hgood : ¬ (m.header.rcode ≠ RCode.NoError ∧ m.header.rcode ≠ RCode.NXDomain) :=
    fun h => h.1 hcode
  unfold onResponse handleResponse handleFiltered
  simp only [hcase, htc, Bool.false_eq_true, if_false, if_neg hgood,
    answerLoop_diverges hmax hdata hcname hnone fuel _ _ t rfl hqtype, Option.bind_eq_bind,
    Option.bind_none]

/-! ### Runs -/

/-- The CNAME limit in a state. -/
structure ChainsLimited (cfg : Config) (env : Random) (w : World) : Prop where
  live : ∀ i t, w.tasks i = some t → t.chain.length ≤ cfg.maxCnameChain.toNat
  finished : ∀ i t r, .finished i t r ∈ w.trace → t.chain.length ≤ cfg.maxCnameChain.toNat
  /-- `step` and `handle_response` end, whichever wake-up they are called from -/
  timers : w.calls = [] → ∀ tid timer, w.timers tid = some timer → timer.due ≤ w.shared.now →
    ∃ w', Step cfg env w (.timer tid) w'
  completions : w.calls = [] → ∀ qid x result, w.pending qid = some x →
    allowed cfg w.shared.now x result = true → ∃ w', Step cfg env w (.upstream qid result) w'

theorem run_hops (hmax : cfg.maxCnameChain ≠ 255) {sh : Shared} {es : List Event}
    (h : Run (Step cfg env) { shared := sh } es w) : AllTasks (HopsOk cfg) (.idle, w) := by
  refine run_keeps (fun _ _ _ hab hs => allTasks_micro hab (hops_micro hmax hab hs.live) hs) h
    (wired_init sh) ⟨?_, ?_, ?_⟩
  · exact fun _ _ ht => absurd ht (by simp)
  · exact fun _ _ _ _ hphase => absurd hphase (by simp)
  · exact fun _ _ _ hmem => absurd hmem (by simp)

theorem HopsOk.length_le {t : Task} (h : HopsOk cfg t) : t.chain.length ≤ cfg.maxCnameChain.toNat :=
  h.counted.le.trans h.within

/-- A record that points to its owner. -/
def selfAlias : RR :=
  { name := letter 97, type := RRType.CNAME, ttl := 3600, rdata := .cname (letter 97) }

/-- A cache that holds such a record. -/
def selfAliased : Shared :=
  { cache := sampleStart.shared.cache.insert 0 ⟨letter 97, kTypeCNAME, kClassIN⟩ [selfAlias] .answer 3600
    selection := sampleStart.shared.selection }

theorem selfAliased_looped : Looped selfAliased (letter 97) := by
  have hsharded : Sharded (perform sampleStart.shared.cache 0
      (.insert ⟨letter 97, kTypeCNAME, kClassIN⟩ [selfAlias] .answer 3600 false)) :=
    perform_sharded (sharded_create ..)
  refine ⟨hsharded, by decide +kernel, by decide +kernel, ?_⟩
  exact ⟨sampleStart.shared.cache.newEntry 0 [selfAlias] .answer 3600 false, selfAlias, rfl,
    by decide +kernel, rfl, rfl, rfl, rfl⟩

/-- **The limit holds, and the loops end, in every run exactly if it is not 255.** -/
theorem chains_limited_iff (cfg : Config) :
    (∀ env sh es w, Run (Step cfg env) { shared := sh } es w → ChainsLimited cfg env w) ↔
      cfg.maxCnameChain ≠ 255 := by
  constructor
  · intro hall hmax
    have hrun : Run (Step cfg fun _ => 0) { shared := selfAliased }
        [.resolve ⟨letter 97, RRType.A, kClassIN⟩] _ := .cons ⟨0, rfl⟩ (.nil _)
    obtain ⟨w', fuel, hstep⟩ := (hall _ _ _ _ hrun).timers rfl 1 ⟨0, .start 1⟩ rfl (Nat.zero_le _)
    have hstart : ∃ f, apply cfg (fun _ => 0) fuel (resolveClient cfg { shared := selfAliased }
          ⟨letter 97, RRType.A, kClassIN⟩) (.timer 1) =
        (stepLoop cfg (fun _ => 0) fuel selfAliased
          { question := ⟨letter 97, RRType.A, kClassIN⟩, qname := letter 97, budget := 1, started := 0
            deadline := some 2, done := .callback 0, client := true }).map f := ⟨_, rfl⟩
    obtain ⟨f, hf⟩ := hstart
    rw [stepLoop_diverges hmax fuel _ _ selfAliased_looped rfl rfl] at hf
    exact absurd (hf.symm.trans hstep) (by simp)
  · intro hmax env sh es w h
    have hlt : cfg.maxCnameChain < 255 := by
      have hbig := cfg.maxCnameChain.toNat_lt
      have hne : cfg.maxCnameChain.toNat ≠ 255 := fun he => hmax (UInt8.toNat_inj.mp he)
      exact UInt8.lt_iff_toNat_lt.mpr (by simp; omega)
    have hops := run_hops hmax h
    refine ⟨?_, ?_, ?_, ?_⟩
    · exact fun i t ht => (hops.live i t ht).length_le
    · exact fun i t r hmem => (hops.finished i t r hmem).length_le
    · exact fun hcalls _ _ ht hdue => timer_handled hlt hcalls ht hdue
    · exact fun hcalls _ _ _ hx hok => completion_handled hlt hcalls hx hok

/-- The sample network with the greatest limit, and a server that answers with such a record. -/
def looseConfig : Config := { sampleConfig with maxCnameChain := 255 }

def selfAliasReply : Message := reply ⟨letter 97, RRType.A, kClassIN⟩ { answers := [selfAlias] }

/-- The answer to a query that is in flight is never done with. -/
theorem self_alias_hangs : ∃ w x, Run (Step looseConfig fun _ => 0) sampleStart
      [.resolve ⟨letter 97, RRType.A, kClassIN⟩, .timer 1] w ∧
    w.calls = [] ∧ w.pending 1 = some x ∧
    allowed looseConfig w.shared.now x (.ok selfAliasReply) = true ∧
    ∀ w', ¬ Step looseConfig (fun _ => 0) w (.upstream 1 (.ok selfAliasReply)) w' := by
  obtain ⟨w, hrun, hw⟩ := Run.exists_of_applyAll
    (fun _ _ _ h => (⟨16, h⟩ : Step looseConfig (fun _ => 0) _ _ _))
    (show (Run.applyAll (apply looseConfig (fun _ => 0) 16) sampleStart
        [.resolve ⟨letter 97, RRType.A, kClassIN⟩, .timer 1]).any (fun w =>
      w.calls.isEmpty &&
      (w.pending 1).any (fun x => x.task == 1 &&
        allowed looseConfig w.shared.now x (.ok selfAliasReply)) &&
      (w.tasks 1).any fun t => !t.sent0x20 && t.question.qtype == kTypeA &&
        decide (t.qname.labels = [[97]] ∧ t.qname.originalCase = [[97]]) &&
        decide (t.zone.labels = [] ∧ t.zone.originalCase = [])) = true by decide +kernel)
  simp only [Bool.and_eq_true, Option.any_eq_true, List.isEmpty_iff, beq_iff_eq,
    Bool.not_eq_true', decide_eq_true_eq] at hw
  obtain ⟨⟨hcalls, x, hx, htask, hallowed⟩, t, ht, ⟨⟨hcase, hqtype⟩, hlabels, hspelling⟩, hzone⟩ := hw
  have hqname : t.qname = letter 97 := Name.ext hlabels hspelling
  have hroot : t.zone = {} := Name.ext hzone.1 hzone.2
  refine ⟨w, x, hrun, hcalls, hx, hallowed, ?_⟩
  rintro w' ⟨fuel, hstep⟩
  have hnone : onResponse looseConfig (fun _ => 0) fuel w.shared { t with upstream := none }
      (.ok selfAliasReply) = none :=
    onResponse_diverges (m := selfAliasReply) (t := { t with upstream := none }) (r := selfAlias)
      rfl hcase rfl rfl (congrArg RData.cname hqname.symm) hqtype
      (by dsimp only; rw [hqname, hroot]; rfl) (by dsimp only; rw [hqname, hroot]; rfl) fuel w.shared
  simp only [apply, hcalls, hx, hallowed, if_true, onUpstream, htask, ht, hnone, Option.map_none] at hstep
  exact absurd hstep (by simp)

end DNSentinel.Resolver.CnameLimit
