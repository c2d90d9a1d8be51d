import DNSentinel.Resolver.Provenance
import DNSentinel.Store.Recall

/-! # What the resolver serves from its cache

Along a run from an empty cache, every entry in the cache is the one that the last accepted insertion
for its key made (`Remembers`), however entries were overwritten, expired or evicted in between. What
`step` takes from the cache is logged (`Logged`); so all of it can be traced back to the response it was
learned from, with the trust and the lifetime that response gave it. -/

namespace DNSentinel.Resolver.Memory

open DNSentinel.Types Lib.Runs Store.Model Store.Contents Store.Calls Store.Accounting Store.Recall
open Selection Data Resolver.Core Machine Turns Effects Phases Wiring Events Provenance

variable {cfg : Config} {env : Random} {src : Option Source} {sizes : Sizes}
  {cacheConfig : CacheConfig} {w : World} {a b : Phase × World} {sh sh' : Shared} {key : CacheKey}
  {use : Use} {records : List RR}

/-! ### Insertions as calls of the cache -/

def callOf (i : Insert) : Call :=
  ⟨i.before, i.time, .insert i.key i.records i.trust i.ttl i.negative⟩

/-- The last insertion for `k` that the cache accepted. -/
def lastFor (k : CacheKey) (inserts : List Insert) : Option Insert :=
  inserts.find? fun i => acceptedFor k (callOf i)

/-- The entry an insertion makes. -/
def made (i : Insert) : CacheEntry := i.before.newEntry i.time i.records i.trust i.ttl i.negative

theorem lastFor_cons (k : CacheKey) (i : Insert) (inserts : List Insert) :
    lastFor k (i :: inserts) =
      if acceptedFor k (callOf i) then some i else lastFor k inserts := by
  unfold lastFor
  rw [List.find?_cons]
  split <;> simp_all

theorem key_of_lastFor {k : CacheKey} {inserts : List Insert} {i : Insert}
    (h : lastFor k inserts = some i) : (i.key == k) = true := by
  have haccepted : (i.key == k && accepts i.before i.time i.key i.trust i.ttl) = true :=
    List.find?_some (p := fun i => acceptedFor k (callOf i)) h
  exact (Bool.and_eq_true_iff.mp haccepted).1

/-- What was served goes back to the insertion `i`. -/
structure ServedFrom (s : Serve) (i : Insert) : Prop where
  last : lastFor s.key s.before = some i
  time : i.time ≤ s.time
  alive : s.time < (made i).expiresAt
  used : UseOk s.use s.key (made i)
  records : ∀ r ∈ s.records, ∃ r₀ ∈ i.records,
    r = { r₀ with ttl := UInt32.ofNat (((made i).expiresAt - s.time) / kSecond) }

/-- The cache holds what the insertions made. -/
structure Remembers (cacheConfig : CacheConfig) (sh : Shared) : Prop where
  ok : CacheOk sh.cache
  config : sh.cache.config = cacheConfig
  entries : ∀ k e, content sh.cache k = some e → ∃ i, lastFor k sh.inserts = some i ∧ e = made i
  inserts : ∀ i ∈ sh.inserts, Backed i ∧ i.time ≤ sh.now ∧ i.before.config = cacheConfig
  served : ∀ s ∈ sh.served, s.before <:+ sh.inserts ∧ ∃ i, ServedFrom s i

/-! ### What keeps it -/

theorem Remembers.perform (h : Remembers cacheConfig sh) (now : ℕ) (op : Op)
    (hop : ∀ k, acceptedFor k ⟨sh.cache, now, op⟩ = false) :
    Remembers cacheConfig { sh with cache := perform sh.cache now op } where
  ok := h.ok.perform now op
  config := (perform_frame sh.cache now op).config.trans h.config
  entries k e he := by
    have hcontent : some e = _ := he.symm.trans (content_perform h.ok now op)
    rw [if_neg (by simp [hop k] : ¬ acceptedFor k ⟨sh.cache, now, op⟩ = true)] at hcontent
    split_ifs at hcontent
    exact h.entries k e hcontent.symm
  inserts := h.inserts
  served := h.served

theorem Remembers.lookup (h : Remembers cacheConfig sh) (key : CacheKey) :
    Remembers cacheConfig (sh.lookup key).2 :=
  h.perform sh.now (.lookup key) fun _ => rfl

theorem Remembers.serve (h : Remembers cacheConfig sh) {e : CacheEntry}
    (hit : (sh.lookup key).1 = some e) (huse : UseOk use key e) (hsub : ∀ r ∈ records, r ∈ e.records) :
    Remembers cacheConfig ((sh.lookup key).2.serve use key records) := by
  have hlookup := h.lookup key
  refine ⟨hlookup.ok, hlookup.config, hlookup.entries, hlookup.inserts, fun s hs => ?_⟩
  rcases List.mem_cons.mp hs with rfl | hs
  · obtain ⟨d, hd, hlive, hserved⟩ := lookup_some_live hit
    obtain ⟨i, hi, rfl⟩ := h.entries key d hd
    have htrust : e.trust = (made i).trust := (congrArg CacheEntry.trust hserved :)
    have hnegative : e.isNegative = (made i).isNegative := (congrArg CacheEntry.isNegative hserved :)
    have hrecords : e.records = (Cache.served sh.now (made i)).records :=
      (congrArg CacheEntry.records hserved :)
    refine ⟨List.suffix_rfl, i, hi, (h.inserts i (List.mem_of_find?_eq_some hi)).2.1, hlive, ?_, ?_⟩
    · cases use with
      | nxdomain => exact huse
      | nodata => exact hnegative.symm.trans huse
      | answer | cname => exact ⟨hnegative ▸ huse.1, htrust ▸ huse.2⟩
    · intro r hr
      have hmem := hsub r hr
      rw [hrecords] at hmem
      obtain ⟨r₀, hr₀, rfl⟩ := List.mem_map.mp hmem
      exact ⟨r₀, hr₀, rfl⟩
  · exact h.served s hs

theorem Remembers.insert (h : Remembers cacheConfig sh) {i : Insert} (hbacked : Backed i)
    (htime : i.time = sh.now) (hbefore : i.before = sh.cache) :
    Remembers cacheConfig { sh with
      cache := sh.cache.insert sh.now i.key i.records i.trust i.ttl i.negative
      inserts := i :: sh.inserts } := by
  have hcall : callOf i =
      ⟨sh.cache, sh.now, .insert i.key i.records i.trust i.ttl i.negative⟩ := by
    rw [callOf, htime, hbefore]
  have hframe := perform_frame sh.cache sh.now (.insert i.key i.records i.trust i.ttl i.negative)
  refine ⟨h.ok.perform _ (.insert ..), hframe.config.trans h.config, fun k e he => ?_, fun j hj => ?_,
    fun s hs => ?_⟩
  · have hcontent : some e = _ := he.symm.trans
      (content_perform h.ok sh.now (.insert i.key i.records i.trust i.ttl i.negative))
    rw [← hcall] at hcontent
    rw [lastFor_cons]
    split_ifs at hcontent with hgone haccepted
    · exact ⟨i, if_pos haccepted, Option.some.inj hcontent⟩
    · rw [if_neg haccepted]
      exact h.entries k e hcontent.symm
  · rcases List.mem_cons.mp hj with rfl | hj
    · exact ⟨hbacked, htime.le, hbefore ▸ h.config⟩
    · exact h.inserts j hj
  · obtain ⟨hsuffix, hfrom⟩ := h.served s hs
    exact ⟨hsuffix.trans (List.suffix_cons ..), hfrom⟩

theorem remembers_moves {a b : Shared × Task} (h : Moves cfg src a b)
    (ha : Remembers cacheConfig a.1) : Remembers cacheConfig b.1 := by
  refine moves_keep (P := fun c => Remembers cacheConfig c.1) (fun c d hcd hc => ?_) h ha
  cases hcd with
  | lookup sh t key => exact hc.lookup key
  | serve sh t use key e hit huse => exact hc.serve hit huse fun _ hr => hr
  | insert sh t hs key records trust ttl negative hok hb => exact hc.insert hb rfl rfl
  | select | mark => exact ⟨hc.ok, hc.config, hc.entries, hc.inserts, hc.served⟩
  | followCached sh t e r target hlimit hq hit huse hmem hdata =>
    refine hc.serve hit huse fun x hx => ?_
    rwa [List.mem_singleton.mp hx]
  | _ => exact hc

theorem remembers_outside (h : Outside sh sh') (hsh : Remembers cacheConfig sh) :
    Remembers cacheConfig sh' := by
  cases h with
  | wait ns =>
    refine ⟨hsh.ok, hsh.config, hsh.entries, fun i hi => ?_, hsh.served⟩
    obtain ⟨hbacked, htime, hconfig⟩ := hsh.inserts i hi
    exact ⟨hbacked, Nat.le_add_right_of_le htime, hconfig⟩
  | evict key => exact hsh.perform sh.now (.evict key) fun _ => rfl
  | flush => exact hsh.perform sh.now .flush fun _ => rfl

theorem remembers_micro (hab : Micro cfg env a b) (ha : Remembers cacheConfig a.2.shared) :
    Remembers cacheConfig b.2.shared := by
  refine shared_keeps hab (fun _ _ => remembers_outside) ?_ ?_ ha
  · exact fun _ _ h => ⟨h.ok, h.config, h.entries, h.inserts, h.served⟩
  · intro wake t turn hstep h
    obtain ⟨u, hmoves, -⟩ := hstep.ok
    exact remembers_moves hmoves h

theorem remembers_start (cfg : Config) (sizes : Sizes) (cacheConfig : CacheConfig) :
    Remembers cacheConfig (start cfg sizes cacheConfig).shared := by
  refine ⟨cacheOk_create sizes cacheConfig, rfl, fun k e he => ?_, ?_, ?_⟩
  · have hrecall := content_eq_recall (.nil : History sizes cacheConfig [] _) k
    exact absurd (he.symm.trans hrecall) (by simp [remembered])
  · exact fun _ hi => absurd hi List.not_mem_nil
  · exact fun _ hs => absurd hs List.not_mem_nil

/-- **The cache holds what the insertions made, in every state of a run from an empty cache.** -/
theorem remembers_run {es : List Event} (h : Run (Step cfg env) (start cfg sizes cacheConfig) es w) :
    Remembers cacheConfig w.shared :=
  run_keeps (P := fun s => Remembers cacheConfig s.2.shared)
    (fun _ _ _ hab ha => remembers_micro hab ha) h (wired_init _) (remembers_start cfg sizes cacheConfig)

/-! ### What `step` takes from the cache -/

/-- What has been taken from the cache, and the CNAMEs followed. -/
def taken (s : Shared × Task) : List Serve × List RR := (s.1.served, s.2.chain)

theorem taken_foldl_addServer : ∀ (addresses : List Address) (sh : Shared) (t : Task),
    taken (sh, addresses.foldl addServer t) = taken (sh, t)
  | [], _, _ => rfl
  | address :: rest, sh, t => by
    rw [List.foldl_cons, taken_foldl_addServer rest]
    unfold addServer
    split_ifs <;> rfl

theorem taken_serverAddresses (glue : List RR) (nsdname : Name) (sh : Shared) (t : Task) :
    taken ((serverAddresses sh glue nsdname).2, t) = taken (sh, t) := by
  unfold serverAddresses
  dsimp only
  split_ifs
  · rfl
  · have hlookup : taken ((sh.lookup ⟨nsdname, kTypeA, kClassIN⟩).2, t) = taken (sh, t) := rfl
    split <;> next h => rwa [h] at hlookup

theorem taken_enterZoneLoop {glue : List RR} : ∀ (ns : List RR) (sh : Shared) (t : Task),
    taken (enterZoneLoop glue ns sh t) = taken (sh, t)
  | [], _, _ => rfl
  | r :: rest, sh, t => by
    unfold enterZoneLoop
    split
    · dsimp only
      rw [taken_enterZoneLoop rest, taken_foldl_addServer, taken_serverAddresses]
      split_ifs <;> rfl
    · exact taken_enterZoneLoop rest sh t

theorem taken_enterZone {zone : Name} {ns glue : List RR} (sh : Shared) (t : Task) :
    taken (enterZone cfg sh t zone ns glue) = taken (sh, t) := by
  unfold enterZone
  dsimp only
  split_ifs
  · rw [taken_foldl_addServer]
    exact taken_enterZoneLoop ns sh _
  · exact taken_enterZoneLoop ns sh _

theorem taken_zoneCutAt (cfg : Config) (sh : Shared) (t : Task) (z : Name) :
    taken ((zoneCutAt cfg sh t z).1, (zoneCutAt cfg sh t z).2.getD t) = taken (sh, t) := by
  have hlookup : taken ((sh.lookup ⟨z, kTypeNS, kClassIN⟩).2, t) = taken (sh, t) := rfl
  unfold zoneCutAt
  cases cfg.stub z with
  | some servers => exact taken_foldl_addServer servers sh _
  | none =>
    generalize sh.lookup ⟨z, kTypeNS, kClassIN⟩ = found at hlookup ⊢
    match found with
    | (none, sh') => exact hlookup
    | (some e, sh') =>
      dsimp only
      split_ifs
      · exact (taken_enterZone sh' t).trans hlookup
      · exact hlookup

theorem taken_closestZoneLoop : ∀ (fuel : ℕ) (sh : Shared) (t : Task) (z : Name),
    taken (closestZoneLoop cfg fuel sh t z) = taken (sh, t)
  | 0, sh, t, _ => taken_enterZone sh t
  | fuel + 1, sh, t, z => by
    have hcut := taken_zoneCutAt cfg sh t z
    unfold closestZoneLoop
    generalize zoneCutAt cfg sh t z = cut at hcut ⊢
    obtain ⟨sh', t'⟩ := cut
    cases t' with
    | some t' => exact hcut
    | none =>
      dsimp only
      split_ifs
      · exact (taken_enterZone sh' t).trans hcut
      · exact (taken_closestZoneLoop fuel sh' t z.parent).trans hcut

theorem chain_gluelessLoop (cfg : Config) : ∀ (names : List Name) (t : Task),
    (gluelessLoop cfg names t).1.chain = t.chain
  | [], _ => rfl
  | name :: rest, t => by
    unfold gluelessLoop
    dsimp only
    split_ifs
    · exact chain_gluelessLoop cfg rest _
    · rfl
    · rfl

/-- `next_server` takes nothing from the cache and has no answer. -/
theorem taken_nextServerLoop (cfg : Config) (env : Random) : ∀ (rounds : ℕ) (sh : Shared) (t : Task),
    let turn := nextServerLoop cfg env rounds sh t
    taken (turn.1, turn.2.1) = taken (sh, t) ∧ ∀ r, turn.2.2 ≠ .finish (.ok r)
  | 0, _, _ => ⟨rfl, fun _ => by simp [nextServerLoop]⟩
  | rounds + 1, sh, t => by
    have hchain := chain_gluelessLoop cfg t.unresolved t
    unfold nextServerLoop
    dsimp only
    split_ifs
    · exact ⟨rfl, fun _ => by simp⟩
    · generalize gluelessLoop cfg t.unresolved t = looked at hchain ⊢
      obtain ⟨t', query⟩ := looked
      cases query with
      | some query => exact ⟨congrArg (Prod.mk sh.served) hchain, fun _ => by simp⟩
      | none =>
        have hsame : taken (sh, t') = taken (sh, t) := congrArg (Prod.mk sh.served) hchain
        dsimp only
        split_ifs
        · obtain ⟨hloop, hno⟩ := taken_nextServerLoop cfg env rounds sh
            { t' with
              retryRounds := t'.retryRounds + 1
              tried := t'.tried.filter fun s => !t'.timedOut.contains s
              timedOut := [] }
          exact ⟨hloop.trans hsame, hno⟩
        · exact ⟨hsame, fun _ => by simp⟩

theorem taken_askClosestZone (cfg : Config) (env : Random) (sh : Shared) (t : Task) :
    let turn := askClosestZone cfg env sh t
    taken (turn.1, turn.2.1) = taken (sh, t) ∧ ∀ r, turn.2.2 ≠ .finish (.ok r) := by
  obtain ⟨htaken, hno⟩ := taken_nextServerLoop cfg env (kMaxRetryRounds.toNat + 1)
    (startAtClosestZone cfg sh t).1 (startAtClosestZone cfg sh t).2
  exact ⟨htaken.trans (taken_closestZoneLoop _ sh t _), hno⟩

/-- Everything that a step takes from the cache is in the log, which it extends by `new`. -/
structure Logged (sh : Shared) (t : Task) (turn : Turn) (new : List Serve) : Prop where
  log : turn.1.served = new ++ sh.served
  chain : ∀ r ∈ turn.2.1.chain, r ∈ t.chain ∨ ∃ s ∈ new, s.use = .cname ∧ r ∈ s.records
  answers : ∀ result, turn.2.2 = .finish (.ok result) → ∀ r ∈ result.response.answers,
    r ∈ turn.2.1.chain ∨ ∃ s ∈ new, s.use = .answer ∧ r ∈ s.records
  authority : ∀ result, turn.2.2 = .finish (.ok result) → ∀ r ∈ result.response.authority,
    ∃ s ∈ new, (s.use = .nxdomain ∨ s.use = .nodata) ∧ r ∈ s.records

theorem logged_of_taken {t : Task} {turn : Turn} (h : taken (turn.1, turn.2.1) = taken (sh, t))
    (hno : ∀ r, turn.2.2 ≠ .finish (.ok r)) : Logged sh t turn [] := by
  obtain ⟨hserved, hchain⟩ := Prod.mk.inj h
  refine ⟨hserved, fun r hr => .inl ?_, ?_, ?_⟩
  · rwa [show turn.2.1.chain = t.chain from hchain] at hr
  · exact fun result hok => absurd hok (hno result)
  · exact fun result hok => absurd hok (hno result)

/-- `step` from a later log on. -/
theorem Logged.after {t t' : Task} {turn : Turn} {new : List Serve} {r₀ : RR} {s : Serve}
    (h : Logged sh' t' turn new) (hserved : sh'.served = s :: sh.served) (huse : s.use = .cname)
    (hmem : r₀ ∈ s.records) (hchain : t'.chain = t.chain ++ [r₀]) : Logged sh t turn (new ++ [s]) := by
  refine ⟨?_, fun r hr => ?_, fun result hok r hr => ?_, fun result hok r hr => ?_⟩
  · rw [h.log, hserved, List.append_assoc]
    rfl
  · rcases h.chain r hr with hr | ⟨x, hx, hlogged⟩
    · rw [hchain] at hr
      rcases List.mem_append.mp hr with hr | hr
      · exact .inl hr
      · exact .inr ⟨s, by simp, huse, List.mem_singleton.mp hr ▸ hmem⟩
    · exact .inr ⟨x, List.mem_append_left _ hx, hlogged⟩
  · rcases h.answers result hok r hr with hr | ⟨x, hx, hlogged⟩
    · exact .inl hr
    · exact .inr ⟨x, List.mem_append_left _ hx, hlogged⟩
  · obtain ⟨x, hx, hlogged⟩ := h.authority result hok r hr
    exact ⟨x, List.mem_append_left _ hx, hlogged⟩

/-- `step` ends with cached records. -/
theorem logged_outcome (hserved : sh'.served = sh.served) (t : Task) (use : Use) (key : CacheKey)
    (rcode : RCode) {answers authority : List RR}
    (hanswers : ∀ r ∈ answers, use = .answer ∧ r ∈ records)
    (hauthority : ∀ r ∈ authority, (use = .nxdomain ∨ use = .nodata) ∧ r ∈ records) :
    Logged sh t (sh'.serve use key records, t, .finish (outcome t rcode answers authority))
      [⟨use, key, records, sh'.now, sh'.inserts⟩] := by
  refine ⟨congrArg (List.cons _) hserved, fun _ hr => .inl hr, ?_, ?_⟩
  · rintro _ ⟨⟩ r hr
    rcases List.mem_append.mp hr with hr | hr
    · exact .inl hr
    · exact .inr ⟨_, List.mem_singleton_self _, hanswers r hr⟩
  · rintro _ ⟨⟩ r hr
    exact ⟨_, List.mem_singleton_self _, hauthority r hr⟩

theorem served_lookup {found : Option CacheEntry} (h : sh.lookup key = (found, sh')) :
    sh'.served = sh.served := by
  have hsame : (sh.lookup key).2.served = sh.served := rfl
  rwa [h] at hsame

theorem stepLoop_logged : ∀ (fuel : ℕ) (sh : Shared) (t : Task) {turn : Turn},
    stepLoop cfg env fuel sh t = some turn → ∃ new, Logged sh t turn new
  | 0, _, _, _, h => by simp [stepLoop] at h
  | fuel + 1, sh, t, turn, h => by
    have hask : ∀ sh', sh'.served = sh.served → Logged sh t (askClosestZone cfg env sh' t) [] := by
      intro sh' hserved
      obtain ⟨htaken, hno⟩ := taken_askClosestZone cfg env sh' t
      exact logged_of_taken (htaken.trans (congrArg (fun served => (served, t.chain)) hserved)) hno
    unfold stepLoop at h
    dsimp only at h
    split at h
    · next nx sh₁ hnx =>
      obtain rfl := Option.some.inj h
      exact ⟨_, logged_outcome (served_lookup hnx) t _ _ _ (by simp) fun r hr => ⟨.inl rfl, hr⟩⟩
    next sh₁ hnx =>
    generalize hhit : sh₁.lookup ⟨t.qname, t.question.qtype, kClassIN⟩ = hit at h
    obtain ⟨found, sh₂⟩ := hit
    have hserved₂ : sh₂.served = sh.served := (served_lookup hhit).trans (served_lookup hnx)
    split at h
    · next e he =>
      split_ifs at h with hneg
      · obtain rfl := Option.some.inj h
        exact ⟨_, logged_outcome hserved₂ t _ _ _ (by simp) fun r hr => ⟨.inr rfl, hr⟩⟩
      · obtain rfl := Option.some.inj h
        exact ⟨_, logged_outcome hserved₂ t _ _ _ (fun r hr => ⟨rfl, hr⟩) (by simp)⟩
    split_ifs at h with hq
    · obtain rfl := Option.some.inj h
      exact ⟨[], hask sh₂ hserved₂⟩
    generalize hcname : sh₂.lookup ⟨t.qname, kTypeCNAME, kClassIN⟩ = found at h
    obtain ⟨found, sh₃⟩ := found
    have hserved₃ : sh₃.served = sh.served := (served_lookup hcname).trans hserved₂
    split at h
    · obtain rfl := Option.some.inj h
      exact ⟨[], hask sh₃ hserved₃⟩
    next r hr =>
    split at h
    · obtain rfl := Option.some.inj h
      refine ⟨[], logged_of_taken ?_ fun _ => by simp⟩
      exact congrArg (fun served => (served, t.chain)) hserved₃
    next t' ht' =>
    obtain ⟨-, target, -, rfl⟩ := followCname_some ht'
    obtain ⟨new, hnew⟩ := stepLoop_logged fuel _ _ h
    exact ⟨_, hnew.after (congrArg (List.cons _) hserved₃) rfl (List.mem_singleton_self r) rfl⟩

/-- **`step` takes nothing from the cache that is not logged.** -/
theorem step_logged {fuel : ℕ} {t : Task} {turn : Turn} (h : step cfg env fuel sh t = some turn) :
    ∃ new, Logged sh t turn new := by
  unfold step at h
  split_ifs at h
  · obtain rfl := Option.some.inj h
    exact ⟨[], logged_of_taken rfl fun _ => by simp⟩
  · exact stepLoop_logged fuel sh t h

end DNSentinel.Resolver.Memory
