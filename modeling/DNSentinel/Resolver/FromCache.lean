import DNSentinel.Resolver.Memory

/-! # Answers from the cache

What `step` takes from the cache was learned from an authoritative answer, and is served no longer than
the response it was learned from allows. The latest answer about a name is served only if there is no
NXDOMAIN entry for the name: that one has a slot of its own, which is looked up first. -/

namespace DNSentinel.Resolver.FromCache

open DNSentinel.Types Lib.Runs Store.Model Store.Contents Store.Calls Store.Accounting Store.Recall
open Selection Data Resolver.Core Machine Turns Effects Events Provenance Memory

variable {cfg : Config} {env : Random} {sizes : Sizes} {cacheConfig : CacheConfig} {w : World}
  {es : List Event} {r r₀ : RR} {i : Insert}

/-- The same record, but for the TTL. -/
def sameData (r r₀ : RR) : Bool := { r with ttl := r₀.ttl } == r₀

theorem sameData_of_beq (ttl : UInt32) (h : (r == r₀) = true) : sameData { r with ttl } r₀ = true := by
  obtain ⟨hname, htype, hcls, -, hrdata⟩ := RR.beq_iff.mp h
  exact RR.beq_iff.mpr ⟨hname, htype, hcls, rfl, hrdata⟩

/-- An insertion of a run, with the response it was made for. -/
theorem insert_facts (h : Run (Step cfg env) (start cfg sizes cacheConfig) es w)
    (hi : i ∈ w.shared.inserts) : Backed i ∧ InsertOk i ∧ Received w.trace i.source := by
  obtain ⟨hok, hreceived⟩ := (sources_run rfl h).inserts i hi
  exact ⟨((remembers_run h).inserts i hi).1, hok, hreceived⟩

/-! ### Trust -/

/-- `r` is from the answer section of an authoritative response, and its owner is in the zone that was
asked. -/
structure Authoritative (trace : List Obs) (i : Insert) (r : RR) : Prop where
  received : Received trace i.source
  aa : i.source.response.header.aa = true
  answer : ∃ r₀ ∈ i.source.response.answers, sameData r r₀ = true
  inside : r.name.isSubdomainOf i.source.zone = true

/-- **Only authoritative answers are served from the cache**, and what `step` serves is in the log. -/
theorem served_authoritative (h : Run (Step cfg env) (start cfg sizes cacheConfig) es w) :
    (∀ s ∈ w.shared.served, s.use = .answer ∨ s.use = .cname →
      ∃ i, lastFor s.key s.before = some i ∧ i ∈ w.shared.inserts ∧
        ∀ r ∈ s.records, Authoritative w.trace i r) ∧
    ∀ fuel sh t turn, step cfg env fuel sh t = some turn → ∃ new, Logged sh t turn new := by
  refine ⟨fun s hs huse => ?_, fun _ _ _ _ => step_logged⟩
  obtain ⟨hsuffix, i, hfrom⟩ := (remembers_run h).served s hs
  have hi : i ∈ w.shared.inserts := hsuffix.subset (List.mem_of_find?_eq_some hfrom.last)
  obtain ⟨hbacked, hok, hreceived⟩ := insert_facts h hi
  have htrust : i.trust = .answer := by
    have hused := hfrom.used
    rcases huse with huse | huse <;> rw [huse] at hused <;> exact hused.2
  obtain ⟨-, haa, hanswers⟩ := hbacked.answer htrust
  refine ⟨i, hfrom.last, hi, fun r hr => ?_⟩
  obtain ⟨r', hr', rfl⟩ := hfrom.records r hr
  obtain ⟨r₀, hr₀, hsame⟩ := hanswers r' hr'
  exact ⟨hreceived, haa, ⟨r₀, hr₀, sameData_of_beq _ hsame⟩, hok.inside r' hr'⟩

/-- A name is resolved, and after ten seconds once more. -/
def resolvedTwice : List Event :=
  [.resolve ⟨letter 97, RRType.A, kClassIN⟩, .timer 1,
    .upstream 1 (.ok (reply ⟨letter 97, RRType.A, kClassIN⟩
      { header := { aa := true }, answers := [{ name := letter 97, rdata := .a 7, ttl := 60 }] })),
    .call, .wait 10000000000, .resolve ⟨letter 97, RRType.A, kClassIN⟩, .timer 3, .call]

theorem served_authoritative_twice :
    ∃ w, Run (Step sampleConfig fun _ => 0) sampleStart resolvedTwice w ∧
      (w.shared.served.any fun s => s.use == .answer && s.records.any (·.ttl == 50)) = true ∧
      ∀ s ∈ w.shared.served, s.use = .answer ∨ s.use = .cname →
        ∃ i, lastFor s.key s.before = some i ∧ i ∈ w.shared.inserts ∧
          ∀ r ∈ s.records, Authoritative w.trace i r := by
  obtain ⟨w, hrun, hserved⟩ := exists_run resolvedTwice
    (P := fun w => w.shared.served.any fun s => s.use == .answer && s.records.any (·.ttl == 50))
    (by decide +kernel)
  exact ⟨w, hrun, hserved, (served_authoritative hrun).1⟩

/-! ### Lifetimes -/

/-- How long a record of a response may be used; a negative answer is as good as its SOA. -/
def lifetime (i : Insert) (r₀ : RR) : ℕ :=
  (if i.negative then negativeTtl r₀ else r₀.ttl).toNat * kSecond

theorem negativeTtl_congr (h : (r == r₀) = true) : negativeTtl r = negativeTtl r₀ := by
  obtain ⟨-, -, -, httl, hrdata⟩ := RR.beq_iff.mp h
  obtain ⟨name, type, cls, ttl, rdata, trust⟩ := r
  obtain ⟨name₀, type₀, cls₀, ttl₀, rdata₀, trust₀⟩ := r₀
  have hrdata : RData.beq rdata rdata₀ = true := hrdata
  obtain rfl : ttl = ttl₀ := httl
  cases rdata <;> cases rdata₀ <;> simp_all [RData.beq, negativeTtl]

theorem effectiveTtl_le {c : Cache} (h : c.config.minTtl = 0) (ttl : UInt32) :
    (c.effectiveTtl ttl).toNat ≤ ttl.toNat := by
  have hmax : max ttl c.config.minTtl = ttl := by
    rw [h]
    show (if ttl ≤ 0 then 0 else ttl) = ttl
    split_ifs with hzero
    · exact (UInt32.le_zero_iff.mp hzero).symm
    · rfl
  unfold Cache.effectiveTtl
  rw [hmax]
  exact UInt32.le_iff_toNat_le.mp Std.min_le_left

/-- An entry lives no longer than each of its records may. -/
theorem expiresAt_le (hmin : i.before.config.minTtl = 0) (hbacked : Backed i) {r : RR}
    (hr : r ∈ i.records) (h : (r == r₀) = true) : (made i).expiresAt ≤ i.time + lifetime i r₀ := by
  have hle : i.ttl ≤ if i.negative then negativeTtl r₀ else r₀.ttl := by
    cases hneg : i.negative with
    | true =>
      rw [if_pos rfl, ← negativeTtl_congr h]
      exact hbacked.negative hneg r hr
    | false =>
      obtain ⟨-, -, -, httl, -⟩ := RR.beq_iff.mp h
      rw [if_neg (by simp), ← httl]
      exact hbacked.positive hneg r hr
  have heffective := effectiveTtl_le hmin i.ttl
  exact Nat.add_le_add_left (Nat.mul_le_mul_right _ (heffective.trans hle)) _

/-- TTLs are rounded down. -/
theorem seconds_le (left : ℕ) : (UInt32.ofNat (left / kSecond)).toNat * kSecond ≤ left := by
  rw [UInt32.toNat_ofNat']
  exact (Nat.mul_le_mul_right _ (Nat.mod_le _ _)).trans (Nat.div_mul_le_self _ _)

/-- What was served at `s.time` is within its lifetime, and so is the TTL it was served with. -/
structure WithinLifetime (s : Serve) (i : Insert) (r r₀ : RR) : Prop where
  time : i.time ≤ s.time
  alive : s.time - i.time < lifetime i r₀
  ttl : r.ttl.toNat * kSecond ≤ lifetime i r₀ - (s.time - i.time)

/-- **Lifetimes are never extended.** -/
theorem lifetimes_kept (hmin : cacheConfig.minTtl = 0)
    (h : Run (Step cfg env) (start cfg sizes cacheConfig) es w) :
    (∀ s ∈ w.shared.served, ∃ i, lastFor s.key s.before = some i ∧ Received w.trace i.source ∧
      (s.use = .nodata → i.negative = true) ∧ ∀ r ∈ s.records,
        (s.use = .nxdomain → i.negative = true ∨ r.type = kNxdomainType) ∧
        ∃ r₀ ∈ sections i.source.response, sameData r r₀ = true ∧ WithinLifetime s i r r₀) ∧
    ∀ fuel sh t turn, step cfg env fuel sh t = some turn → ∃ new, Logged sh t turn new := by
  refine ⟨fun s hs => ?_, fun _ _ _ _ => step_logged⟩
  obtain ⟨hsuffix, i, hfrom⟩ := (remembers_run h).served s hs
  have hi : i ∈ w.shared.inserts := hsuffix.subset (List.mem_of_find?_eq_some hfrom.last)
  obtain ⟨hbacked, hok, hreceived⟩ := insert_facts h hi
  have hconfig : i.before.config = cacheConfig := ((remembers_run h).inserts i hi).2.2
  refine ⟨i, hfrom.last, hreceived, ?_, fun r hr => ⟨?_, ?_⟩⟩
  · intro huse
    have hused := hfrom.used
    rw [huse] at hused
    exact hused
  · intro huse
    have hused := hfrom.used
    rw [huse] at hused
    obtain ⟨r', hr', rfl⟩ := hfrom.records r hr
    cases hneg : i.negative with
    | true => exact .inl rfl
    | false =>
      obtain ⟨-, hqtype, -⟩ := CacheKey.beq_iff.mp (key_of_lastFor hfrom.last)
      rcases hok.owner hneg r' hr' |>.2 with htype | ⟨hns, -⟩
      · exact .inr (htype.trans (hqtype.trans hused))
      · exact absurd (hns.symm.trans (hqtype.trans hused)) (by decide)
  · obtain ⟨r', hr', rfl⟩ := hfrom.records r hr
    obtain ⟨r₀, hr₀, hsame⟩ := hok.received r' hr'
    have hexpires := expiresAt_le (by rw [hconfig, hmin]) hbacked hr' hsame
    have htime := hfrom.time
    have halive := hfrom.alive
    refine ⟨r₀, hr₀, sameData_of_beq _ hsame, htime, by omega, ?_⟩
    exact (seconds_le _).trans (by omega)

theorem lifetimes_kept_twice :
    ∃ w, Run (Step sampleConfig fun _ => 0) sampleStart resolvedTwice w ∧
      (w.shared.served.any fun s => s.time == 10000000000 && s.records.any (·.ttl == 50)) = true ∧
      ∀ s ∈ w.shared.served, ∃ i, lastFor s.key s.before = some i ∧ Received w.trace i.source ∧
        (s.use = .nodata → i.negative = true) ∧ ∀ r ∈ s.records,
          (s.use = .nxdomain → i.negative = true ∨ r.type = kNxdomainType) ∧
          ∃ r₀ ∈ sections i.source.response, sameData r r₀ = true ∧ WithinLifetime s i r r₀ := by
  obtain ⟨w, hrun, hserved⟩ := exists_run resolvedTwice
    (P := fun w => w.shared.served.any fun s => s.time == 10000000000 && s.records.any (·.ttl == 50))
    (by decide +kernel)
  exact ⟨w, hrun, hserved, (lifetimes_kept rfl hrun).1⟩

/-! ### The latest answer -/

/-- With nothing inserted for its name since, what the cache has for the key is from `i`. -/
theorem content_of_last (h : Remembers cacheConfig w.shared) {newer older : List Insert}
    (hsplit : w.shared.inserts = newer ++ i :: older)
    (haccepted : accepts i.before i.time i.key i.trust i.ttl = true)
    (hlater : ∀ j ∈ newer, (j.key.name == i.key.name) = false)
    (hkept : (content w.shared.cache i.key).isSome = true) :
    content w.shared.cache i.key = some (made i) := by
  obtain ⟨e, he⟩ := Option.isSome_iff_exists.mp hkept
  obtain ⟨j, hj, rfl⟩ := h.entries _ _ he
  have hself : acceptedFor i.key (callOf i) = true := by
    rw [callOf, acceptedFor_insert, haccepted, beq_self_eq_true]
    rfl
  have hnone : newer.find? (fun j => acceptedFor i.key (callOf j)) = none := by
    refine List.find?_eq_none.mpr fun j hj haccepted => ?_
    rw [callOf, acceptedFor_insert, Bool.and_eq_true] at haccepted
    have hname : (j.key.name == i.key.name) = true :=
      Name.beq_iff.mpr (CacheKey.beq_iff.mp haccepted.1).1
    exact absurd (hname.symm.trans (hlater j hj)) (by simp)
  rw [hsplit, lastFor, List.find?_append, hnone, Option.none_or,
    List.find?_cons_of_pos (p := fun j => acceptedFor i.key (callOf j)) hself] at hj
  rw [he, Option.some.inj hj]

theorem chain_moves {src : Option Source} {a b : Shared × Task} (h : Moves cfg src a b) :
    a.2.chain <+: b.2.chain := by
  refine moves_keep (P := fun c => a.2.chain <+: c.2.chain) (fun c d hcd hc => ?_) h
    (List.prefix_refl _)
  cases hcd with
  | follow | followCached => exact hc.trans (List.prefix_append ..)
  | _ => exact hc

variable {sh : Shared} {t : Task} {e : CacheEntry}

theorem stepLoop_chain {fuel : ℕ} {turn : Turn} (hclass : t.question.qclass = kClassIN)
    (h : stepLoop cfg env fuel sh t = some turn) : t.chain.length ≤ turn.2.1.chain.length := by
  have hok : TurnOk cfg none (sh, t) turn := stepLoop_ok fuel sh t hclass h
  obtain ⟨u, hmoves, hu | hu⟩ := turn_moves hok
  · rw [hu]
    exact (chain_moves hmoves).length_le
  · rw [hu]
    exact (chain_moves hmoves).length_le

theorem step_denied (fuel : ℕ) (hclass : t.question.qclass = kClassIN)
    (hdenied : (sh.lookup ⟨t.qname, kNxdomainType, kClassIN⟩).1 = some e) :
    ∃ sh', step cfg env (fuel + 1) sh t =
      some (sh', t, .finish (outcome t RCode.NXDomain [] e.records)) := by
  unfold step stepLoop
  rw [if_neg (by simpa using hclass)]
  dsimp only
  split
  · next nx sh₁ hnx =>
    obtain rfl : nx = e := Option.some.inj ((congrArg Prod.fst hnx).symm.trans hdenied)
    exact ⟨_, rfl⟩
  · next sh₁ hnx => exact absurd ((congrArg Prod.fst hnx).symm.trans hdenied) (by simp)

theorem step_found (fuel : ℕ) (hclass : t.question.qclass = kClassIN)
    (hdenied : (sh.lookup ⟨t.qname, kNxdomainType, kClassIN⟩).1 = none)
    (hasked : ((sh.lookup ⟨t.qname, kNxdomainType, kClassIN⟩).2.lookup
      ⟨t.qname, t.question.qtype, kClassIN⟩).1 = some e) (hpositive : e.isNegative = false) :
    (∃ sh', step cfg env (fuel + 1) sh t =
      some (sh', t, .finish (outcome t RCode.NoError e.records []))) ↔ e.trust = .answer := by
  unfold step
  rw [if_neg (by simpa using hclass)]
  constructor
  · rintro ⟨sh', h⟩
    by_contra htrust
    have hkind : (e.isNegative || e.trust == .answer) = false := by simp [hpositive, htrust]
    unfold stepLoop at h
    dsimp only at h
    split at h
    · next nx sh₁ hnx => exact absurd ((congrArg Prod.fst hnx).symm.trans hdenied) (by simp)
    next sh₁ hnx =>
    obtain rfl : (sh.lookup ⟨t.qname, kNxdomainType, kClassIN⟩).2 = sh₁ := congrArg Prod.snd hnx
    rw [hasked, Option.filter_some, hkind] at h
    simp only [Bool.false_eq_true, if_false] at h
    have hask : ∀ sh₂, some (askClosestZone cfg env sh₂ t) ≠
        some (sh', t, .finish (outcome t RCode.NoError e.records [])) := fun sh₂ heq =>
      (taken_askClosestZone cfg env sh₂ t).2 _
        (congrArg (fun turn : Turn => turn.2.2) (Option.some.inj heq))
    split_ifs at h with hq
    · exact hask _ h
    split at h
    · exact hask _ h
    next r hr =>
    split at h
    · exact absurd (congrArg (fun turn : Turn => turn.2.2) (Option.some.inj h)) (by simp [outcome])
    next t' ht' =>
    obtain ⟨-, target, -, rfl⟩ := followCname_some ht'
    -- the task would have one CNAME more
    have hlonger := stepLoop_chain (by exact hclass) h
    simp at hlonger
  · intro htrust
    have hkind : (e.isNegative || e.trust == .answer) = true := by simp [htrust]
    unfold stepLoop
    dsimp only
    split
    · next nx sh₁ hnx => exact absurd ((congrArg Prod.fst hnx).symm.trans hdenied) (by simp)
    next sh₁ hnx =>
    obtain rfl : (sh.lookup ⟨t.qname, kNxdomainType, kClassIN⟩).2 = sh₁ := congrArg Prod.snd hnx
    rw [hasked, Option.filter_some, if_pos hkind]
    simp only [hpositive, Bool.false_eq_true, if_false]
    exact ⟨_, rfl⟩

/-- **A cached RRset answers its question exactly if it is an authoritative answer and there is no
NXDOMAIN entry for the name.** -/
theorem answered_again_iff (h : Run (Step cfg env) (start cfg sizes cacheConfig) es w)
    {newer older : List Insert} (hsplit : w.shared.inserts = newer ++ i :: older)
    (hpositive : i.negative = false)
    (haccepted : accepts i.before i.time i.key i.trust i.ttl = true)
    (hlater : ∀ j ∈ newer, (j.key.name == i.key.name) = false)
    (hkept : (content w.shared.cache i.key).isSome = true)
    (halive : w.shared.now < (made i).expiresAt)
    (hasked : ((⟨t.qname, t.question.qtype, t.question.qclass⟩ : CacheKey) == i.key) = true)
    (fuel : ℕ) :
    (∃ sh, step cfg env (fuel + 1) w.shared t = some (sh, t, .finish
      (outcome t RCode.NoError (Cache.served w.shared.now (made i)).records []))) ↔
    i.trust = .answer ∧ live w.shared.cache w.shared.now ⟨t.qname, kNxdomainType, kClassIN⟩ = none := by
  have hmemory := remembers_run h
  obtain ⟨-, hok, -⟩ := insert_facts (i := i) h (by simp [hsplit])
  have hclass : t.question.qclass = kClassIN := (CacheKey.beq_iff.mp hasked).2.2.trans hok.qclass
  rw [hclass] at hasked
  have hcontent := content_of_last hmemory hsplit haccepted hlater hkept
  have hdeniedIff : (w.shared.lookup ⟨t.qname, kNxdomainType, kClassIN⟩).1 = none ↔
      live w.shared.cache w.shared.now ⟨t.qname, kNxdomainType, kClassIN⟩ = none := lookup_none_iff
  rw [← hdeniedIff]
  cases hdenied : (w.shared.lookup ⟨t.qname, kNxdomainType, kClassIN⟩).1 with
  | some nx =>
    obtain ⟨sh₁, hnx⟩ : ∃ sh₁, step cfg env (fuel + 1) w.shared t = some (sh₁, t, _) :=
      step_denied fuel hclass hdenied
    refine ⟨fun ⟨sh₂, hstep⟩ => ?_, fun ⟨_, hnone⟩ => by simp at hnone⟩
    rw [hnx] at hstep
    simp [outcome, RCode.NXDomain, RCode.NoError] at hstep
  | none =>
    have hkeep : content (w.shared.lookup ⟨t.qname, kNxdomainType, kClassIN⟩).2.cache
        ⟨t.qname, t.question.qtype, kClassIN⟩ = some (made i) :=
      (content_lookup hmemory.ok.sharded).trans ((content_congr hasked).trans hcontent)
    obtain ⟨e, he, hserved⟩ := lookup_of_content hkeep halive
    have htrust : e.trust = i.trust := (congrArg CacheEntry.trust hserved :)
    have hneg : e.isNegative = false := (congrArg CacheEntry.isNegative hserved).trans hpositive
    have hrecords : e.records = (Cache.served w.shared.now (made i)).records :=
      (congrArg CacheEntry.records hserved :)
    rw [← hrecords, step_found fuel hclass hdenied he hneg, htrust]
    exact ⟨fun htrust => ⟨htrust, rfl⟩, fun hboth => hboth.1⟩

/-- The text record of `a`, and the answer that has it. -/
def textAnswer : Message :=
  reply ⟨letter 97, RRType.TXT, kClassIN⟩
    { header := { aa := true }
      answers := [{ name := letter 97, type := RRType.TXT, rdata := .txt [[116]], ttl := 60 }] }

/-- `a` does not exist. -/
def denial : Message :=
  reply ⟨letter 97, RRType.A, kClassIN⟩
    { header := { aa := true, rcode := RCode.NXDomain }
      authority := [{ type := RRType.SOA, rdata := .soa {} {} 1 1 1 1 60, ttl := 60 }] }

/-- A new resolution of it. -/
def textTask : Task :=
  { question := ⟨letter 97, RRType.TXT, kClassIN⟩, qname := letter 97, budget := 2, started := 0
    done := .callback 1 }

theorem answered_again_iff_text :
    ∃ w i older, Run (Step sampleConfig fun _ => 0) sampleStart
        [.resolve textTask.question, .timer 1, .upstream 1 (.ok textAnswer), .call] w ∧
      w.shared.inserts = [] ++ i :: older ∧ i.source.response.header.aa = true ∧
      ((∃ sh, step sampleConfig (fun _ => 0) 1 w.shared textTask = some (sh, textTask, .finish
          (outcome textTask RCode.NoError (Cache.served w.shared.now (made i)).records []))) ↔
        i.trust = .answer ∧
          live w.shared.cache w.shared.now ⟨letter 97, kNxdomainType, kClassIN⟩ = none) := by
  obtain ⟨w, hrun, hw⟩ := exists_run
    [.resolve textTask.question, .timer 1, .upstream 1 (.ok textAnswer), .call]
    (P := fun w => match w.shared.inserts with
      | i :: _ => i.source.response.header.aa && !i.negative &&
          decide (w.shared.now < (made i).expiresAt) &&
          accepts i.before i.time i.key i.trust i.ttl && (content w.shared.cache i.key).isSome &&
          (CacheKey.mk (letter 97) RRType.TXT kClassIN) == i.key
      | [] => false) (by decide +kernel)
  split at hw
  · next i older hinserts =>
    simp only [Bool.and_eq_true, Bool.not_eq_true', decide_eq_true_eq] at hw
    obtain ⟨⟨⟨⟨⟨haa, hneg⟩, halive⟩, haccepted⟩, hkept⟩, hkey⟩ := hw
    have hsplit : w.shared.inserts = [] ++ i :: older := hinserts
    exact ⟨w, i, older, hrun, hsplit, haa,
      answered_again_iff (t := textTask) hrun hsplit hneg haccepted (by simp) hkept halive hkey 0⟩
  · exact absurd hw (by simp)

/-- **An NXDOMAIN entry hides a later answer.** `a` is asked for by two clients at once; the one answer
says that there is no such name, the next has its text; asked for the text again, the resolver says
that there is no such name. -/
theorem text_hidden :
    ∃ w i older r trace, Run (Step sampleConfig fun _ => 0) sampleStart
        [.resolve ⟨letter 97, RRType.A, kClassIN⟩, .resolve ⟨letter 97, RRType.TXT, kClassIN⟩, .timer 1,
          .timer 3, .upstream 1 (.ok denial), .call, .upstream 2 (.ok textAnswer), .call,
          .resolve ⟨letter 97, RRType.TXT, kClassIN⟩, .timer 5, .call] w ∧
      w.shared.inserts = i :: older ∧ i.source.response.header.aa = true ∧ i.negative = false ∧
      (i.key == ⟨letter 97, RRType.TXT, kClassIN⟩) = true ∧ i.ttl = 60 ∧
      (live w.shared.cache w.shared.now i.key).isSome = true ∧
      w.trace = .called 2 (.ok r) :: trace ∧ r.response.header.rcode = RCode.NXDomain ∧
      r.response.answers = [] := by
  obtain ⟨w, hrun, hw⟩ := exists_run
    [.resolve ⟨letter 97, RRType.A, kClassIN⟩, .resolve ⟨letter 97, RRType.TXT, kClassIN⟩, .timer 1,
      .timer 3, .upstream 1 (.ok denial), .call, .upstream 2 (.ok textAnswer), .call,
      .resolve ⟨letter 97, RRType.TXT, kClassIN⟩, .timer 5, .call]
    (P := fun w => (w.shared.inserts.head?.any fun i => i.source.response.header.aa && !i.negative &&
        i.key == ⟨letter 97, RRType.TXT, kClassIN⟩ && i.ttl == 60 &&
        (live w.shared.cache w.shared.now i.key).isSome) &&
      (lastCall w).any fun c => c.1 == 2 && c.2.toOption.any fun r =>
        r.response.header.rcode == RCode.NXDomain && r.response.answers.isEmpty) (by decide +kernel)
  simp only [Bool.and_eq_true, Bool.not_eq_true', beq_iff_eq, List.isEmpty_iff, Option.any_eq_true]
    at hw
  obtain ⟨⟨i, hi, ⟨⟨⟨haa, hneg⟩, hkey⟩, httl⟩, halive⟩, ⟨cb, result⟩, hcall, rfl, r, hr, hcode, hempty⟩ :=
    hw
  obtain ⟨older, hinserts⟩ := List.head?_eq_some_iff.mp hi
  obtain ⟨trace, htrace⟩ := trace_of_lastCall hcall
  cases result with
  | error e => cases hr
  | ok r' =>
    obtain rfl : r' = r := Option.some.inj hr
    exact ⟨w, i, older, r', trace, hrun, hinserts, haa, hneg, hkey, httl, halive, htrace, hcode, hempty⟩

end DNSentinel.Resolver.FromCache
