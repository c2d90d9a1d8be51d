import DNSentinel.Resolver.Core
import DNSentinel.Store.Contents
import Mathlib.Logic.Relation

/-! # What a step of a task does

Every function of `Core` is a sequence of small moves on the shared state and the task: a lookup, an
insertion that keeps to the response being handled, a CNAME followed, a new zone cut, bookkeeping.
`Move` lists them with what is known where they are made, and `TurnOk` says how a step ends. What
holds along every run of the resolver is derived from these, not from the functions themselves. -/

namespace DNSentinel.Resolver.Turns

open DNSentinel.Types Store.Model Selection Data Resolver.Core

/-! ### Insertions -/

/-- Every record of a message. -/
def sections (m : Message) : List RR := m.answers ++ m.authority ++ m.additional

/-- An insertion made while handling `i.source.response` keeps to that response and to the zone that
was asked. -/
structure InsertOk (i : Insert) : Prop where
  qclass : i.key.qclass = kClassIN
  key_inside : i.key.name.isSubdomainOf i.source.zone = true
  inside : ∀ r ∈ i.records, r.name.isSubdomainOf i.source.zone = true
  received : ∀ r ∈ i.records, ∃ r' ∈ sections i.source.response, (r == r') = true
  owner : i.negative = false → ∀ r ∈ i.records, (r.name == i.key.name) = true ∧
    (r.type = i.key.qtype ∨ i.key.qtype = kTypeNS ∧ isNs r.rdata = true)
  soa : i.negative = true → ∀ r ∈ i.records,
    isSoa r.rdata = true ∧ i.key.name.isSubdomainOf r.name = true
  nxdomain : i.key.qtype = kNxdomainType → i.source.query.qtype = kNxdomainType ∨
    i.source.response.header.rcode = RCode.NXDomain ∧ (i.key.name == i.source.query.qname) = true

/-- What the trust and the TTL of an insertion rest on: the highest trust is for what an authoritative
response answers, and no record is kept longer than its TTL allows. Answers are filed under their type,
and a negative answer is one record. -/
structure Backed (i : Insert) : Prop where
  answer : i.trust = .answer → i.negative = false ∧ i.source.response.header.aa = true ∧
    ∀ r ∈ i.records, ∃ r' ∈ i.source.response.answers, (r == r') = true
  positive : i.negative = false → ∀ r ∈ i.records, i.ttl ≤ r.ttl
  negative : i.negative = true → ∀ r ∈ i.records, i.ttl ≤ negativeTtl r
  filed : i.trust = .answer → ∀ r ∈ i.records, r.cls = kClassIN ∧ r.type = i.key.qtype
  single : i.negative = true → i.records.length = 1
  reserved : i.negative = false → i.key.qtype = kNxdomainType → i.source.query.qtype = kNxdomainType

/-- What a cached entry may be used for. -/
def UseOk : Use → CacheKey → CacheEntry → Prop
  | .nxdomain, key, _ => key.qtype = kNxdomainType
  | .nodata, _, e => e.isNegative = true
  | .answer, _, e => e.isNegative = false ∧ e.trust = .answer
  | .cname, _, e => e.isNegative = false ∧ e.trust = .answer

/-! ### Moves -/

/-- The name being resolved is at or below the zone cut being asked, and in class IN. -/
def InZone (t : Task) : Prop :=
  t.qname.isSubdomainOf t.zone = true ∧ t.question.qclass = kClassIN

/-- One small move; `src` is the response being handled, if there is one. -/
inductive Move (cfg : Config) (src : Option Source) : Shared × Task → Shared × Task → Prop
  | lookup (sh : Shared) (t : Task) (key : CacheKey) : Move cfg src (sh, t) ((sh.lookup key).2, t)
  /-- what a lookup finds is used -/
  | serve (sh : Shared) (t : Task) (use : Use) (key : CacheKey) (e : CacheEntry)
      (hit : (sh.lookup key).1 = some e) (huse : UseOk use key e) :
      Move cfg src (sh, t) ((sh.lookup key).2.serve use key e.records, t)
  | insert (sh : Shared) (t : Task) {s : Source} (hs : src = some s) (key : CacheKey)
      (records : List RR) (trust : TrustRank) (ttl : UInt32) (negative : Bool)
      (h : InsertOk ⟨s, key, records, trust, ttl, negative, sh.now, sh.cache⟩)
      (hb : Backed ⟨s, key, records, trust, ttl, negative, sh.now, sh.cache⟩) :
      Move cfg src (sh, t) (sh.insert s key records trust ttl negative, t)
  | select (sh : Shared) (t : Task) (draws : ℕ) (selection : ServerSelection) :
      Move cfg src (sh, t) ({ sh with draws, selection }, t)
  /-- a server is known to change letter case -/
  | mark (sh : Shared) (t : Task) (address : Address) :
      Move cfg src (sh, t) ({ sh with no0x20 := address :: sh.no0x20 }, t)
  | note (sh : Shared) (t : Task) (servers : List Address) (unresolved : List Name)
      (tried timedOut : List Address) (retryRounds : UInt8) (referrals : UInt16)
      (timeouts : UInt32) :
      Move cfg src (sh, t)
        (sh, { t with servers, unresolved, tried, timedOut, retryRounds, referrals, timeouts })
  | enter (sh : Shared) (t : Task) (zone : Name) : Move cfg src (sh, t) (sh, resetZone t zone)
  /-- a CNAME of the response is followed -/
  | follow (sh : Shared) (t : Task) (r : RR) (target : Name)
      (hlimit : t.cnameHops + 1 ≤ cfg.maxCnameChain)
      (hq : t.question.qtype ≠ kTypeCNAME) (hname : (r.name == t.qname) = true)
      (htype : r.type = kTypeCNAME) (hdata : r.rdata = .cname target) :
      Move cfg src (sh, t)
        (sh, { t with cnameHops := t.cnameHops + 1, chain := t.chain ++ [r], qname := target })
  /-- a cached CNAME is followed -/
  | followCached (sh : Shared) (t : Task) (e : CacheEntry) (r : RR) (target : Name)
      (hlimit : t.cnameHops + 1 ≤ cfg.maxCnameChain) (hq : t.question.qtype ≠ kTypeCNAME)
      (hit : (sh.lookup ⟨t.qname, kTypeCNAME, kClassIN⟩).1 = some e)
      (huse : UseOk .cname ⟨t.qname, kTypeCNAME, kClassIN⟩ e)
      (hmem : r ∈ e.records) (hdata : r.rdata = .cname target) :
      Move cfg src (sh, t)
        ((sh.lookup ⟨t.qname, kTypeCNAME, kClassIN⟩).2.serve .cname ⟨t.qname, kTypeCNAME, kClassIN⟩ [r],
          { t with cnameHops := t.cnameHops + 1, chain := t.chain ++ [r], qname := target })

abbrev Moves (cfg : Config) (src : Option Source) : Shared × Task → Shared × Task → Prop :=
  Relation.ReflTransGen (Move cfg src)

/-- A lookup of `key` between `a` and `b` returned `e`. -/
def Hit (cfg : Config) (src : Option Source) (a b : Shared × Task) (key : CacheKey) (e : CacheEntry) : Prop :=
  ∃ s, Moves cfg src a s ∧ (s.1.lookup key).1 = some e ∧ Moves cfg src s b

/-! ### How a step ends -/

/-- A record of this name and type, in class IN. -/
structure OwnedBy (name : Name) (qtype : UInt16) (r : RR) : Prop where
  name : (r.name == name) = true
  type : r.type = qtype
  cls : r.cls = kClassIN

/-- The result of a task: its chain and what the cache or the response has for the last name. -/
structure ResultOk (cfg : Config) (src : Option Source) (a b : Shared × Task) (rcode : RCode)
    (found proof : List RR) : Prop where
  nxdomain : rcode = RCode.NXDomain →
    (∃ e, Hit cfg src a b ⟨b.2.qname, kNxdomainType, kClassIN⟩ e) ∨
    ∃ s, src = some s ∧ s.response.header.rcode = RCode.NXDomain ∧
      (s.query.qname == b.2.qname) = true
  answers : ∀ r ∈ found, OwnedBy b.2.qname b.2.question.qtype r ∨
    ∃ e, Hit cfg src a b ⟨b.2.qname, b.2.question.qtype, kClassIN⟩ e ∧
      (e.isNegative = false ∧ e.trust = .answer) ∧ r ∈ e.records
  authority : proof.length ≤ 1 ∧
      (∀ r ∈ proof, isSoa r.rdata = true ∧ b.2.qname.isSubdomainOf r.name = true) ∨
    ∃ key e, Hit cfg src a b key e ∧ proof = e.records ∧ key.name = b.2.qname ∧
      (key.qtype = kNxdomainType ∨ e.isNegative = true)
  negative : rcode = RCode.NXDomain ∨ proof ≠ [] → found = []

/-- The last call of a step from `a`: the moves lead to `b`, and the task is left as `t`. -/
def NextOk (cfg : Config) (src : Option Source) (a b : Shared × Task) (t : Task) : Next → Prop
  | .finish (.ok r) => t = b.2 ∧ ∃ rcode answers authority,
      outcome t rcode answers authority = .ok r ∧ ResultOk cfg src a b rcode answers authority
  | .finish (.error _) => t = b.2
  | .sendQuery address _ => t = b.2 ∧ address ∈ t.servers ∧ InZone t
  | .spawn q ancestry => t = { b.2 with gluelessLookups := b.2.gluelessLookups + 1 } ∧ InZone t ∧
      b.2.gluelessLookups < cfg.maxGluelessNs ∧ b.2.ancestry.length < kMaxSubqueryDepth ∧
      ancestry = b.2.ancestry ++ [b.2.target] ∧ q.qtype = kTypeA

/-- A step from `a` that ends with `turn`. -/
def TurnOk (cfg : Config) (src : Option Source) (a : Shared × Task) (turn : Turn) : Prop :=
  ∃ t, Moves cfg src a (turn.1, t) ∧ NextOk cfg src a (turn.1, t) turn.2.1 turn.2.2

section

variable {cfg : Config} {env : Random} {src : Option Source} {a b c : Shared × Task} {turn : Turn}

theorem Hit.head {key : CacheKey} {e : CacheEntry} (h : Moves cfg src a b) : Hit cfg src b c key e →
    Hit cfg src a c key e := fun ⟨s, hs, he, hc⟩ => ⟨s, h.trans hs, he, hc⟩

theorem ResultOk.head {rcode : RCode} {answers authority : List RR} (hm : Moves cfg src a b)
    (h : ResultOk cfg src b c rcode answers authority) :
    ResultOk cfg src a c rcode answers authority where
  nxdomain hr := (h.nxdomain hr).imp_left fun ⟨e, he⟩ => ⟨e, he.head hm⟩
  answers r hr := (h.answers r hr).imp_right fun ⟨e, he, hrest⟩ => ⟨e, he.head hm, hrest⟩
  authority := h.authority.imp_right fun ⟨key, e, he, hrest⟩ => ⟨key, e, he.head hm, hrest⟩
  negative := h.negative

/-- Moves first, then the end of a step. -/
theorem TurnOk.head (hm : Moves cfg src a b) : TurnOk cfg src b turn → TurnOk cfg src a turn := by
  obtain ⟨sh, t, next⟩ := turn
  rintro ⟨t', hms, hnext⟩
  refine ⟨t', hm.trans hms, ?_⟩
  match next, hnext with
  | .finish (.error _), hnext => exact hnext
  | .finish (.ok _), ⟨ht, rcode, answers, authority, hr, hok⟩ =>
    exact ⟨ht, rcode, answers, authority, hr, hok.head hm⟩
  | .sendQuery _ _, hnext => exact hnext
  | .spawn _ _, hnext => exact hnext

theorem turnOk_error {sh : Shared} {t : Task} (e : ResolveError) :
    TurnOk cfg src (sh, t) (sh, t, .finish (.error e)) := ⟨t, .refl, rfl⟩

/-! ### Zones and servers -/

theorem followCname_some {t t' : Task} {r : RR} (h : followCname cfg t r = some t') :
    t.cnameHops + 1 ≤ cfg.maxCnameChain ∧ ∃ target, r.rdata = .cname target ∧
      t' = { t with cnameHops := t.cnameHops + 1, chain := t.chain ++ [r], qname := target } := by
  unfold followCname at h
  split at h
  · next target hdata =>
    dsimp only at h
    split_ifs at h with hlimit
    exact ⟨UInt8.not_lt.mp hlimit, target, hdata, (Option.some.inj h).symm⟩
  · simp at h

theorem moves_foldl_addServer {sh : Shared} : ∀ (addresses : List Address) (t : Task),
    Moves cfg src (sh, t) (sh, addresses.foldl addServer t)
  | [], _ => .refl
  | address :: rest, t => by
    refine .trans ?_ (moves_foldl_addServer rest _)
    unfold addServer
    split_ifs
    · exact .refl
    · exact .single (.note ..)

theorem moves_serverAddresses (glue : List RR) (nsdname : Name) (sh : Shared) (t : Task) :
    Moves cfg src (sh, t) ((serverAddresses sh glue nsdname).2, t) := by
  unfold serverAddresses
  dsimp only
  split_ifs
  · exact .refl
  have hmove : Move cfg src (sh, t) ((sh.lookup ⟨nsdname, kTypeA, kClassIN⟩).2, t) := .lookup sh t _
  split
  · next h =>
    rw [h] at hmove
    exact .single hmove
  · next h =>
    rw [h] at hmove
    exact .single hmove

theorem moves_enterZoneLoop {glue : List RR} : ∀ (ns : List RR) (sh : Shared) (t : Task),
    Moves cfg src (sh, t) (enterZoneLoop glue ns sh t)
  | [], _, _ => .refl
  | r :: rest, sh, t => by
    unfold enterZoneLoop
    split
    · next nsdname _ =>
      refine .trans (moves_serverAddresses glue nsdname sh t) ?_
      generalize serverAddresses sh glue nsdname = found
      obtain ⟨addresses, sh'⟩ := found
      refine .trans ?_ (moves_enterZoneLoop rest _ _)
      refine .trans ?_ (moves_foldl_addServer addresses _)
      dsimp only
      split_ifs
      · exact .single (.note ..)
      · exact .refl
    · exact moves_enterZoneLoop rest sh t

theorem moves_enterZone {sh : Shared} {t : Task} {zone : Name} {ns glue : List RR} :
    Moves cfg src (sh, t) (enterZone cfg sh t zone ns glue) := by
  have hloop : Moves cfg src (sh, t) (enterZoneLoop glue ns sh (resetZone t zone)) :=
    .head (.enter sh t zone) (moves_enterZoneLoop ns _ _)
  unfold enterZone
  generalize enterZoneLoop glue ns sh (resetZone t zone) = entered at hloop ⊢
  obtain ⟨sh', t'⟩ := entered
  dsimp only
  split_ifs
  · exact hloop.trans (moves_foldl_addServer _ _)
  · exact hloop

/-- Where a task is. -/
def place (t : Task) : Name × Name × Question := (t.qname, t.zone, t.question)

theorem inZone_of_place {t t' : Task} (h : place t' = place t) (ht : InZone t) : InZone t' := by
  simp only [place, Prod.mk.injEq] at h
  obtain ⟨hqname, hzone, hquestion⟩ := h
  exact ⟨by rw [hqname, hzone, ht.1], by rw [hquestion, ht.2]⟩

/-- Adding servers changes nothing else. -/
theorem foldl_addServer_eq : ∀ (addresses : List Address) (t : Task), ∃ servers,
    t.servers ⊆ servers ∧ addresses.foldl addServer t = { t with servers }
  | [], t => ⟨t.servers, List.Subset.refl _, rfl⟩
  | address :: rest, t => by
    obtain ⟨servers, hsub, heq⟩ := foldl_addServer_eq rest (addServer t address)
    rw [List.foldl_cons, heq]
    unfold addServer at hsub ⊢
    split_ifs at hsub ⊢
    · exact ⟨servers, hsub, rfl⟩
    · exact ⟨servers, fun a ha => hsub (List.mem_append_left _ ha), rfl⟩

theorem enterZoneLoop_eq (glue : List RR) : ∀ (ns : List RR) (sh : Shared) (t : Task),
    ∃ servers unresolved, (enterZoneLoop glue ns sh t).2 = { t with servers, unresolved }
  | [], _, t => ⟨t.servers, t.unresolved, rfl⟩
  | r :: rest, sh, t => by
    unfold enterZoneLoop
    split
    · next nsdname _ =>
      dsimp only
      generalize serverAddresses sh glue nsdname = found
      obtain ⟨addresses, sh'⟩ := found
      dsimp only
      obtain ⟨servers, unresolved, heq⟩ := enterZoneLoop_eq glue rest sh' (addresses.foldl addServer
        (if addresses.isEmpty then { t with unresolved := t.unresolved ++ [nsdname] } else t))
      obtain ⟨added, -, hadded⟩ := foldl_addServer_eq addresses
        (if addresses.isEmpty then { t with unresolved := t.unresolved ++ [nsdname] } else t)
      refine ⟨servers, unresolved, ?_⟩
      rw [heq, hadded]
      split_ifs <;> rfl
    · exact enterZoneLoop_eq glue rest sh t

theorem enterZone_eq (cfg : Config) (sh : Shared) (t : Task) (zone : Name) (ns glue : List RR) :
    ∃ servers unresolved,
      (enterZone cfg sh t zone ns glue).2 = { resetZone t zone with servers, unresolved } := by
  obtain ⟨servers, unresolved, heq⟩ := enterZoneLoop_eq glue ns sh (resetZone t zone)
  unfold enterZone
  dsimp only
  split_ifs
  · obtain ⟨added, -, hadded⟩ := foldl_addServer_eq (ipv4Addresses cfg.hints.addresses)
      (enterZoneLoop glue ns sh (resetZone t zone)).2
    exact ⟨added, unresolved, by rw [hadded, heq]⟩
  · exact ⟨servers, unresolved, heq⟩

theorem place_foldl_addServer (addresses : List Address) (t : Task) :
    place (addresses.foldl addServer t) = place t := by
  obtain ⟨servers, -, heq⟩ := foldl_addServer_eq addresses t
  rw [heq]
  rfl

theorem place_enterZone {sh : Shared} {t : Task} {zone : Name} {ns glue : List RR} :
    place (enterZone cfg sh t zone ns glue).2 = (t.qname, zone, t.question) := by
  obtain ⟨servers, unresolved, heq⟩ := enterZone_eq cfg sh t zone ns glue
  rw [heq]
  rfl

theorem inZone_enterZone {sh : Shared} {t : Task} {zone : Name} {ns glue : List RR}
    (h : t.qname.isSubdomainOf zone = true) (hq : t.question.qclass = kClassIN) :
    InZone (enterZone cfg sh t zone ns glue).2 :=
  inZone_of_place (t := { t with zone }) place_enterZone ⟨h, hq⟩

theorem zoneCutAt_ok (cfg : Config) (src : Option Source) (sh : Shared) (t : Task)
    {z : Name} (h : t.qname.isSubdomainOf z = true) (hq : t.question.qclass = kClassIN) :
    Moves cfg src (sh, t) ((zoneCutAt cfg sh t z).1, (zoneCutAt cfg sh t z).2.getD t) ∧
      ∀ t' ∈ (zoneCutAt cfg sh t z).2, InZone t' := by
  have hmove : Move cfg src (sh, t) ((sh.lookup ⟨z, kTypeNS, kClassIN⟩).2, t) := .lookup sh t _
  unfold zoneCutAt
  cases cfg.stub z with
  | some servers =>
    refine ⟨.head (.enter sh t z) (moves_foldl_addServer servers _), ?_⟩
    rintro _ ⟨⟩
    exact inZone_of_place (place_foldl_addServer servers (resetZone t z)) ⟨h, hq⟩
  | none =>
    generalize sh.lookup ⟨z, kTypeNS, kClassIN⟩ = found at hmove ⊢
    match found with
    | (none, sh') => exact ⟨.single hmove, by simp⟩
    | (some e, sh') =>
      dsimp only
      split_ifs
      · refine ⟨.head hmove moves_enterZone, ?_⟩
        rintro _ ⟨⟩
        exact inZone_enterZone h hq
      · exact ⟨.single hmove, by simp⟩

theorem closestZoneLoop_ok (src : Option Source) : ∀ (fuel : ℕ) (sh : Shared) (t : Task) (z : Name),
    t.qname.isSubdomainOf z = true → t.question.qclass = kClassIN →
    Moves cfg src (sh, t) (closestZoneLoop cfg fuel sh t z) ∧ InZone (closestZoneLoop cfg fuel sh t z).2
  | 0, _, _, _, _, hq => ⟨moves_enterZone, inZone_enterZone (Name.isSubdomainOf_root _) hq⟩
  | fuel + 1, sh, t, z, h, hq => by
    obtain ⟨hmoves, hin⟩ := zoneCutAt_ok cfg src sh t h hq
    unfold closestZoneLoop
    generalize zoneCutAt cfg sh t z = cut at hmoves hin ⊢
    match cut with
    | (sh', some t') => exact ⟨hmoves, hin t' rfl⟩
    | (sh', none) =>
      dsimp only
      split_ifs
      · exact ⟨.trans hmoves moves_enterZone, inZone_enterZone (Name.isSubdomainOf_root _) hq⟩
      · have hparent := Name.isSubdomainOf_trans h z.isSubdomainOf_parent
        obtain ⟨hmoves', hin'⟩ := closestZoneLoop_ok src fuel sh' t z.parent hparent hq
        exact ⟨.trans hmoves hmoves', hin'⟩

theorem startAtClosestZone_ok (cfg : Config) (src : Option Source) (sh : Shared) (t : Task)
    (hq : t.question.qclass = kClassIN) :
    Moves cfg src (sh, t) (startAtClosestZone cfg sh t) ∧ InZone (startAtClosestZone cfg sh t).2 :=
  closestZoneLoop_ok src _ sh t _ (Name.isSubdomainOf_self _) hq

/-! ### The next server -/

/-- How the loop over the name servers without glue ends. -/
theorem gluelessLoop_ok (cfg : Config) (src : Option Source) (sh : Shared) :
    ∀ (names : List Name) (t : Task), InZone t →
    match gluelessLoop cfg names t with
    | (t', some (q, ancestry)) => TurnOk cfg src (sh, t) (sh, t', .spawn q ancestry)
    | (t', none) => Moves cfg src (sh, t) (sh, t') ∧ InZone t'
  | [], _, h => ⟨.single (.note ..), h⟩
  | name :: rest, t, h => by
    unfold gluelessLoop
    by_cases hlt : t.gluelessLookups < cfg.maxGluelessNs
    · have hnote : Move cfg src (sh, t) (sh, { t with unresolved := rest }) := .note ..
      simp only [hlt, if_true]
      by_cases hskip : (wouldCycle { t with unresolved := rest } ⟨name, kTypeA, kClassIN⟩ ||
          decide (kMaxSubqueryDepth ≤ t.ancestry.length)) = true
      · simp only [hskip, if_true]
        have ih := gluelessLoop_ok cfg src sh rest { t with unresolved := rest } h
        generalize gluelessLoop cfg rest { t with unresolved := rest } = looked at ih ⊢
        match looked with
        | (t', some (q, ancestry)) => exact ih.head (.single hnote)
        | (t', none) => exact ⟨.head hnote ih.1, ih.2⟩
      · simp only [hskip]
        rw [Bool.or_eq_true, not_or, decide_eq_true_iff] at hskip
        exact ⟨_, .single hnote, rfl, h, hlt, Nat.lt_of_not_le hskip.2, rfl, rfl⟩
    · simp only [hlt, if_false]
      exact ⟨.single (.note ..), h⟩

theorem nextServerLoop_ok : ∀ (rounds : ℕ) (sh : Shared) (t : Task), InZone t →
    TurnOk cfg src (sh, t) (nextServerLoop cfg env rounds sh t)
  | 0, _, _, _ => turnOk_error _
  | rounds + 1, sh, t, h => by
    unfold nextServerLoop
    dsimp only
    split_ifs with huntried
    · have hne : (t.servers.filter fun s => !t.tried.contains s) ≠ [] := by simpa using huntried
      refine ⟨t, .single (.select ..), rfl, ?_, h⟩
      exact List.mem_of_mem_filter (sh.selection.pick_mem env sh.draws sh.now hne)
    · have hless := gluelessLoop_ok cfg src sh t.unresolved t h
      generalize gluelessLoop cfg t.unresolved t = looked at hless ⊢
      match looked with
      | (t', some (q, ancestry)) => exact hless
      | (t', none) =>
        dsimp only
        split_ifs
        · refine .head ?_ (nextServerLoop_ok rounds sh _ hless.2)
          exact hless.1.tail (.note ..)
        · exact .head hless.1 (turnOk_error _)

theorem nextServer_ok {sh : Shared} {t : Task} (h : InZone t) :
    TurnOk cfg src (sh, t) (nextServer cfg env sh t) := nextServerLoop_ok _ sh t h

theorem nextServer_enterZone_ok {sh : Shared} {t : Task} {zone : Name} {ns glue : List RR}
    (h : t.qname.isSubdomainOf zone = true) (hq : t.question.qclass = kClassIN) :
    TurnOk cfg src (sh, t) (nextServer cfg env (enterZone cfg sh t zone ns glue).1
      (enterZone cfg sh t zone ns glue).2) := by
  have hmoves : Moves cfg src (sh, t) (enterZone cfg sh t zone ns glue) := moves_enterZone
  exact .head hmoves (nextServer_ok (inZone_enterZone h hq))

theorem askClosestZone_ok (sh : Shared) (t : Task) (hq : t.question.qclass = kClassIN) :
    TurnOk cfg src (sh, t) (askClosestZone cfg env sh t) := by
  obtain ⟨hmoves, hin⟩ := startAtClosestZone_ok cfg src sh t hq
  exact .head hmoves (nextServer_ok hin)

/-! ### From the cache -/

theorem lookup_moves {sh sh' : Shared} {key : CacheKey} {found : Option CacheEntry}
    (h : sh.lookup key = (found, sh')) (t : Task) : Move cfg src (sh, t) (sh', t) := by
  have hmove : Move cfg src (sh, t) ((sh.lookup key).2, t) := .lookup sh t key
  rwa [h] at hmove

theorem serve_moves {sh sh' : Shared} {use : Use} {key : CacheKey} {e : CacheEntry}
    (h : sh.lookup key = (some e, sh')) (huse : UseOk use key e) (t : Task) :
    Move cfg src (sh, t) (sh'.serve use key e.records, t) := by
  have hmove : Move cfg src (sh, t) ((sh.lookup key).2.serve use key e.records, t) :=
    .serve sh t use key e (by rw [h]) huse
  rwa [h] at hmove

theorem serve_hit {sh sh' : Shared} {use : Use} {key : CacheKey} {e : CacheEntry}
    (h : sh.lookup key = (some e, sh')) (huse : UseOk use key e) (t : Task) :
    Hit cfg src (sh, t) (sh'.serve use key e.records, t) key e :=
  ⟨(sh, t), .refl, by rw [h], .single (serve_moves h huse t)⟩

theorem usableCname_some {found : Option CacheEntry} {r : RR} (h : usableCname found = some r) :
    ∃ e, found = some e ∧ e.isNegative = false ∧ e.trust = .answer ∧ r ∈ e.records := by
  unfold usableCname at h
  split at h
  · next e =>
    split_ifs at h with hok
    rw [Bool.or_eq_true, not_or, Bool.not_eq_true] at hok
    exact ⟨e, rfl, hok.1, by simpa using hok.2, List.mem_of_head? h⟩
  · simp at h

theorem stepLoop_ok : ∀ (fuel : ℕ) (sh : Shared) (t : Task) {turn : Turn},
    t.question.qclass = kClassIN → stepLoop cfg env fuel sh t = some turn →
    TurnOk cfg src (sh, t) turn
  | 0, _, _, _, _, h => by simp [stepLoop] at h
  | fuel + 1, sh, t, turn, hclass, h => by
    unfold stepLoop at h
    dsimp only at h
    split at h
    · next nx sh₁ hnx =>
      obtain rfl := Option.some.inj h
      have huse : UseOk .nxdomain ⟨t.qname, kNxdomainType, kClassIN⟩ nx := rfl
      have hhit : Hit cfg src (sh, t) _ ⟨t.qname, kNxdomainType, kClassIN⟩ nx := serve_hit hnx huse t
      exact ⟨t, .single (serve_moves hnx huse t), rfl, _, _, _, rfl, fun _ => .inl ⟨nx, hhit⟩, by simp,
        .inr ⟨_, nx, hhit, rfl, rfl, .inl rfl⟩, fun _ => rfl⟩
    next sh₁ hnx =>
    refine .head (.single (lookup_moves hnx t)) ?_
    generalize hhit : sh₁.lookup ⟨t.qname, t.question.qtype, kClassIN⟩ = hit at h
    obtain ⟨found, sh₂⟩ := hit
    split at h
    · next e he =>
      obtain ⟨rfl, hkind⟩ := Option.filter_eq_some_iff.mp he
      split_ifs at h with hneg
      · obtain rfl := Option.some.inj h
        have huse : UseOk .nodata ⟨t.qname, t.question.qtype, kClassIN⟩ e := hneg
        refine ⟨t, .single (serve_moves hhit huse t), rfl, _, _, _, rfl, ?_, by simp, ?_, fun _ => rfl⟩
        · exact fun hr => absurd hr (by decide)
        · exact .inr ⟨_, e, serve_hit hhit huse t, rfl, rfl, .inr hneg⟩
      · obtain rfl := Option.some.inj h
        have huse : UseOk .answer ⟨t.qname, t.question.qtype, kClassIN⟩ e := by
          simp only [hneg, Bool.false_or, beq_iff_eq] at hkind
          exact ⟨by simpa using hneg, hkind⟩
        refine ⟨t, .single (serve_moves hhit huse t), rfl, _, _, _, rfl, ?_, ?_, .inl (by simp), ?_⟩
        · exact fun hr => absurd hr (by decide)
        · exact fun r hr => .inr ⟨e, serve_hit hhit huse t, huse, hr⟩
        · rintro (hr | hr)
          · exact absurd hr (by decide)
          · exact absurd rfl hr
    refine .head (.single (lookup_moves hhit t)) ?_
    split_ifs at h with hq
    · obtain rfl := Option.some.inj h
      exact askClosestZone_ok sh₂ t hclass
    generalize hcname : sh₂.lookup ⟨t.qname, kTypeCNAME, kClassIN⟩ = found at h
    obtain ⟨found, sh₃⟩ := found
    split at h
    · obtain rfl := Option.some.inj h
      exact .head (.single (lookup_moves hcname t)) (askClosestZone_ok sh₃ t hclass)
    next r hr =>
    obtain ⟨e, rfl, hneg, htrust, hmem⟩ := usableCname_some hr
    split at h
    · obtain rfl := Option.some.inj h
      exact .head (.single (lookup_moves hcname t)) (turnOk_error _)
    next t' ht' =>
    obtain ⟨hlimit, target, hdata, rfl⟩ := followCname_some ht'
    refine .head (.single ?_) (stepLoop_ok fuel _ _ (by exact hclass) h)
    obtain rfl : (sh₂.lookup ⟨t.qname, kTypeCNAME, kClassIN⟩).2 = sh₃ := by rw [hcname]
    exact .followCached sh₂ t e r target hlimit hq (by rw [hcname]) ⟨hneg, htrust⟩ hmem hdata

theorem step_ok {fuel : ℕ} {sh : Shared} {t : Task} (h : step cfg env fuel sh t = some turn) :
    TurnOk cfg src (sh, t) turn := by
  unfold step at h
  split_ifs at h with hclass
  · obtain rfl := Option.some.inj h
    exact turnOk_error _
  · exact stepLoop_ok fuel sh t (by simpa using hclass) h

/-! ### What a response brings -/

/-- `m` is what is left of the response of `s`: records below the zone, in another letter case. -/
structure FilteredOf (s : Source) (m : Message) : Prop where
  header : m.header = s.response.header
  inside : ∀ r ∈ sections m, r.name.isSubdomainOf s.zone = true
  received : ∀ r ∈ sections m, ∃ r' ∈ sections s.response, (r == r') = true
  answered : ∀ r ∈ m.answers, ∃ r' ∈ s.response.answers, (r == r') = true

theorem sections_filterToBailiwick (m : Message) (zone : Name) :
    sections (filterToBailiwick m zone) =
      (sections m).filter fun r => r.name.isSubdomainOf zone := by
  simp [sections, filterToBailiwick]

/-- Letter case does not matter. -/
theorem beq_restore {asked : Name} (r : RR) : ((if r.name == asked then
    { r with name := { r.name with originalCase := asked.originalCase } } else r) == r) = true := by
  split_ifs
  · exact RR.beq_iff.mpr ⟨rfl, rfl, rfl, rfl, RData.beq_self _⟩
  · exact RR.beq_self r

theorem mem_sections_restoreCase {m : Message} {asked : Name} {r : RR}
    (h : r ∈ sections (restoreCase m asked)) : ∃ r' ∈ sections m, (r == r') = true := by
  have hmap : sections (restoreCase m asked) = (sections m).map fun r =>
      if r.name == asked then
        { r with name := { r.name with originalCase := asked.originalCase } } else r := by
    simp [sections, restoreCase]
  rw [hmap] at h
  obtain ⟨r', hr', rfl⟩ := List.mem_map.mp h
  exact ⟨r', hr', beq_restore r'⟩

theorem filteredOf_filterToBailiwick {s : Source} {restore : Bool} {asked : Name} :
    FilteredOf s (filterToBailiwick
      (if restore then restoreCase s.response asked else s.response) s.zone) where
  header := by cases restore <;> rfl
  inside r hr := by
    rw [sections_filterToBailiwick] at hr
    exact (List.mem_filter.mp hr).2
  received r hr := by
    rw [sections_filterToBailiwick] at hr
    have hr := (List.mem_filter.mp hr).1
    cases restore
    · exact ⟨r, hr, RR.beq_self r⟩
    · exact mem_sections_restoreCase hr
  answered r hr := by
    have hr := (List.mem_filter.mp hr).1
    cases restore
    · exact ⟨r, hr, RR.beq_self r⟩
    · obtain ⟨r', hr', rfl⟩ := List.mem_map.mp hr
      exact ⟨r', hr', beq_restore r'⟩

variable {s : Source} {m : Message} {name : Name} {qtype : UInt16} {records : List RR}
  {trust : TrustRank} {ttl : UInt32} {time : ℕ} {before : Cache}

/-- Answers, CNAMEs, NS sets and glue: records the response has for the key. -/
theorem insertOk_owner (hm : FilteredOf s m) (hne : records ≠ [])
    (hnx : qtype = kNxdomainType → s.query.qtype = kNxdomainType)
    (h : ∀ r ∈ records, r ∈ sections m ∧ (r.name == name) = true ∧
      (r.type = qtype ∨ qtype = kTypeNS ∧ isNs r.rdata = true)) :
    InsertOk ⟨s, ⟨name, qtype, kClassIN⟩, records, trust, ttl, false, time, before⟩ where
  qclass := rfl
  key_inside := by
    obtain ⟨r, hr⟩ := List.exists_mem_of_ne_nil records hne
    obtain ⟨hmem, hname, -⟩ := h r hr
    show name.isSubdomainOf s.zone = true
    rw [← Name.isSubdomainOf_congr hname]
    exact hm.inside r hmem
  inside r hr := hm.inside r (h r hr).1
  received r hr := hm.received r (h r hr).1
  owner _ r hr := (h r hr).2
  soa hneg := by simp at hneg
  nxdomain hq := .inl (hnx hq)

/-- The SOA that proves a negative answer. -/
theorem insertOk_soa (hm : FilteredOf s m) {r : RR} (hsoa : findSoa m.authority name = some r)
    (hin : name.isSubdomainOf s.zone = true)
    (hnx : qtype = kNxdomainType → s.query.qtype = kNxdomainType ∨
      s.response.header.rcode = RCode.NXDomain ∧ (name == s.query.qname) = true) :
    InsertOk ⟨s, ⟨name, qtype, kClassIN⟩, [r], trust, ttl, true, time, before⟩ := by
  have hfound := List.find?_some hsoa
  rw [Bool.and_eq_true] at hfound
  have hmem : r ∈ sections m := by
    simp only [sections, List.mem_append]
    exact .inl (.inr (List.mem_of_find?_eq_some hsoa))
  refine ⟨rfl, hin, ?_, ?_, by simp, fun _ => ?_, hnx⟩
  · simpa using hm.inside r hmem
  · simpa using hm.received r hmem
  · simpa using hfound

theorem findSoa_proof (authority : List RR) (name : Name) :
    (findSoa authority name).toList.length ≤ 1 ∧ ∀ r ∈ (findSoa authority name).toList,
      isSoa r.rdata = true ∧ name.isSubdomainOf r.name = true := by
  cases hsoa : findSoa authority name with
  | none => simp
  | some r =>
    have hfound := List.find?_some hsoa
    rw [Bool.and_eq_true] at hfound
    simpa using hfound

/-- Negative answers are not trusted most, and live as long as their SOA allows. -/
theorem backed_soa {key : CacheKey} {r : RR} :
    Backed ⟨s, key, [r], .authority, negativeTtl r, true, time, before⟩ where
  answer h := by simp at h
  positive h := by simp at h
  negative _ x hx := by
    rw [List.mem_singleton.mp hx]
    exact UInt32.le_refl _
  filed h := by simp at h
  single _ := rfl
  reserved h := by simp at h

theorem foldl_min_le : ∀ (rrs : List RR) (ttl : UInt32),
    rrs.foldl (fun ttl r => min ttl r.ttl) ttl ≤ ttl ∧
      ∀ r ∈ rrs, rrs.foldl (fun ttl r => min ttl r.ttl) ttl ≤ r.ttl
  | [], ttl => ⟨UInt32.le_refl ttl, by simp⟩
  | r :: rrs, ttl => by
    obtain ⟨hfirst, hrest⟩ := foldl_min_le rrs (min ttl r.ttl)
    rw [List.foldl_cons]
    refine ⟨UInt32.le_trans hfirst Std.min_le_left, fun x hx => ?_⟩
    rcases List.mem_cons.mp hx with rfl | hx
    · exact UInt32.le_trans hfirst Std.min_le_right
    · exact hrest x hx

theorem minTtl_le {rrs : List RR} {r : RR} (h : r ∈ rrs) : minTtl rrs ≤ r.ttl := by
  unfold minTtl
  rw [if_neg (by simpa using List.ne_nil_of_mem h)]
  exact (foldl_min_le rrs _).2 r h

theorem mem_collect {rrs : List RR} {r : RR} (h : r ∈ collect rrs name qtype) :
    r ∈ rrs ∧ OwnedBy name qtype r := by
  obtain ⟨hmem, hr⟩ := List.mem_filter.mp h
  simp only [Bool.and_eq_true, beq_iff_eq] at hr
  exact ⟨hmem, hr.2, hr.1.2, hr.1.1⟩

/-- The NS records of a referral share one owner. -/
theorem mem_referralNs (authority : List RR) : ∀ r ∈ referralNs authority,
    r ∈ authority ∧ isNs r.rdata = true ∧
      ∀ first ∈ (referralNs authority).head?, (r.name == first.name) = true := by
  unfold referralNs
  refine List.foldlRecOn (motive := fun ns : List RR => ∀ r ∈ ns, r ∈ authority ∧
    isNs r.rdata = true ∧ ∀ first ∈ ns.head?, (r.name == first.name) = true) authority _ (by simp)
    fun ns ih x hx => ?_
  split_ifs with hskip
  · exact ih
  rw [Bool.or_eq_true, not_or, Bool.not_eq_true', Bool.not_eq_false] at hskip
  match ns, ih with
  | [], _ => simp [hx, hskip.2]
  | first :: rest, ih =>
    dsimp only
    split_ifs with hname
    · intro r hr
      rcases List.mem_append.mp hr with hr | hr
      · exact ih r hr
      · obtain rfl := List.mem_singleton.mp hr
        exact ⟨hx, hskip.2, by simpa using hname⟩
    · exact ih

/-- Records of one type that the response has for a name are inserted. -/
theorem move_insert (hs : src = some s) (hm : FilteredOf s m) {rrs : List RR} (sh : Shared) (t : Task)
    (hrrs : ∀ r ∈ rrs, r ∈ sections m) (hne : records ≠ [])
    (hsub : ∀ r ∈ records, r ∈ collect rrs name qtype)
    (hnx : qtype = kNxdomainType → s.query.qtype = kNxdomainType)
    (htrust : trust = .answer → m.header.aa = true ∧ rrs = m.answers)
    (httl : ∀ r ∈ records, ttl ≤ r.ttl) :
    Move cfg src (sh, t) (sh.insert s ⟨name, qtype, kClassIN⟩ records trust ttl, t) := by
  refine .insert sh t hs _ _ _ _ false (insertOk_owner hm hne hnx fun r hr => ?_)
    ⟨?_, ?_, by simp, ?_, by simp, fun _ => hnx⟩
  · obtain ⟨hmem, howned⟩ := mem_collect (hsub r hr)
    exact ⟨hrrs r hmem, howned.name, .inl howned.type⟩
  · intro h
    obtain ⟨haa, rfl⟩ := htrust h
    exact ⟨rfl, hm.header ▸ haa, fun r hr => hm.answered r (mem_collect (hsub r hr)).1⟩
  · exact fun _ => httl
  · intro _ r hr
    have howned := (mem_collect (hsub r hr)).2
    exact ⟨howned.cls, howned.type⟩

theorem moves_cacheGlue (hs : src = some s) (hm : FilteredOf s m) (t : Task) :
    ∀ (ns : List RR) (sh : Shared), Moves cfg src (sh, t) (cacheGlue s m.additional ns sh, t)
  | [], _ => .refl
  | r :: rest, sh => by
    unfold cacheGlue
    split
    · next nsdname _ =>
      refine .trans ?_ (moves_cacheGlue hs hm t rest _)
      split_ifs with hempty
      · exact .refl
      · refine .single (move_insert hs hm sh t ?_ (by simpa using hempty) (fun r hr => hr) ?_ ?_
          fun r hr => minTtl_le hr)
        · intro r hr
          simp only [sections, List.mem_append]
          exact .inr hr
        · exact fun h => absurd h (by decide)
        · exact fun h => absurd h (by decide)
    · exact moves_cacheGlue hs hm t rest sh

/-- The loop over the answer section. A response in which no CNAME was followed leaves the task as
it was. -/
theorem answerLoop_ok (hs : src = some s) (hm : FilteredOf s m) {rank : TrustRank}
    (hrank : rank = .answer → m.header.aa = true) :
    ∀ (fuel : ℕ) (followed : Bool) (sh : Shared) (t : Task) {sh' : Shared} {t' : Task}
      {out : Next ⊕ Bool}, s.query.qtype = t.question.qtype →
      answerLoop cfg s m rank fuel followed sh t = some (sh', t', out) →
      match out with
      | .inl next => TurnOk cfg src (sh, t) (sh', t', next)
      | .inr again => Moves cfg src (sh, t) (sh', t') ∧ (again = false → followed = false ∧ t' = t)
  | 0, _, _, _, _, _, _, _, h => by simp [answerLoop] at h
  | fuel + 1, followed, sh, t, sh', t', out, hq, h => by
    unfold answerLoop at h
    dsimp only at h
    have hmem : ∀ r ∈ m.answers, r ∈ sections m := fun r hr => by
      simp only [sections, List.mem_append]
      exact .inl (.inl hr)
    split at h
    · next hrrset =>
      obtain ⟨rfl, rfl, rfl⟩ := Option.some.inj h
      generalize hset : collect m.answers t.qname t.question.qtype = rrset at hrrset ⊢
      have hinsert : Move cfg src (sh, t)
          (sh.insert s ⟨t.qname, t.question.qtype, kClassIN⟩ rrset rank (minTtl rrset), t) :=
        move_insert hs hm sh t hmem (by simpa using hrrset) (fun r hr => hset ▸ hr)
          (fun h => hq.trans h) (fun h => ⟨hrank h, rfl⟩) fun r hr => minTtl_le hr
      refine ⟨t, .head hinsert ?_, rfl, _, _, _, rfl, fun hr => absurd hr (by decide),
        fun r hr => .inl (mem_collect (hset ▸ hr)).2, .inl (by simp), ?_⟩
      · split_ifs
        · exact moves_cacheGlue hs hm t _ _
        · exact .refl
      · rintro (hr | hr)
        · exact absurd hr (by decide)
        · exact absurd rfl hr
    split at h
    · obtain ⟨rfl, rfl, rfl⟩ := Option.some.inj h
      exact ⟨.refl, fun h => ⟨h, rfl⟩⟩
    next hcname =>
    split at h
    · obtain ⟨rfl, rfl, rfl⟩ := Option.some.inj h
      exact ⟨.refl, fun h => ⟨h, rfl⟩⟩
    next cname rest heq =>
    have hin : cname ∈ collect m.answers t.qname kTypeCNAME := by simp [heq]
    obtain ⟨-, hname, htype, -⟩ := mem_collect hin
    have hinsert : Move cfg src (sh, t)
        (sh.insert s ⟨t.qname, kTypeCNAME, kClassIN⟩ [cname] rank cname.ttl, t) := by
      refine move_insert hs hm sh t hmem (by simp) (by simpa using hin)
        (fun h => absurd h (by decide)) (fun h => ⟨hrank h, rfl⟩) fun r hr => ?_
      rw [List.mem_singleton.mp hr]
      exact UInt32.le_refl _
    split at h
    · obtain ⟨rfl, rfl, rfl⟩ := Option.some.inj h
      exact .head (.single hinsert) (turnOk_error _)
    next t₁ ht₁ =>
    obtain ⟨hlimit, target, hdata, rfl⟩ := followCname_some ht₁
    have hfollow : Moves cfg src (sh, t) _ :=
      .tail (.single hinsert) (.follow _ t cname target hlimit hcname hname htype hdata)
    have ih := answerLoop_ok hs hm hrank fuel true _ _ (by exact hq) h
    match out, ih with
    | .inl next, ih => exact .head hfollow ih
    | .inr again, ih => exact ⟨hfollow.trans ih.1, fun hno => absurd (ih.2 hno).1 (by simp)⟩

theorem handleNegative_ok (hs : src = some s) (hm : FilteredOf s m) (sh : Shared) (t : Task)
    (hquery : s.query = t.target) (hzone : s.zone = t.zone) (hin : InZone t) :
    TurnOk cfg src (sh, t) (handleNegative cfg env s m sh t) := by
  have hqname : t.qname = s.query.qname := by rw [hquery]; rfl
  have hqtype : t.question.qtype = s.query.qtype := by rw [hquery]; rfl
  have hinside : t.qname.isSubdomainOf s.zone = true := hzone ▸ hin.1
  unfold handleNegative
  dsimp only
  by_cases hnx : m.header.rcode = RCode.NXDomain
  · rw [if_pos hnx]
    have hrcode : s.response.header.rcode = RCode.NXDomain := hm.header ▸ hnx
    have hsame : (t.qname == s.query.qname) = true := hqname ▸ Name.beq_refl _
    refine ⟨t, ?_, rfl, _, _, _, rfl, fun _ => .inr ⟨s, hs, hrcode, ?_⟩, by simp,
      .inl (findSoa_proof m.authority t.qname), fun _ => rfl⟩
    · cases hsoa : findSoa m.authority t.qname with
      | none => exact .refl
      | some r => exact .single (.insert sh t hs _ _ _ _ true
          (insertOk_soa hm hsoa hinside fun _ => .inr ⟨hrcode, hsame⟩) backed_soa)
    · rwa [Name.beq_comm]
  rw [if_neg hnx]
  have hns : ∀ r ∈ (if m.header.aa then [] else referralNs m.authority),
      r ∈ sections m ∧ isNs r.rdata = true ∧
        ∀ first ∈ (if m.header.aa then [] else referralNs m.authority).head?,
          (r.name == first.name) = true := by
    cases m.header.aa
    · intro r hr
      obtain ⟨hmem, hrest⟩ := mem_referralNs m.authority r hr
      refine ⟨?_, hrest⟩
      simp only [sections, List.mem_append]
      exact .inl (.inr hmem)
    · simp
  generalize (if m.header.aa then [] else referralNs m.authority) = ns at hns ⊢
  match ns, hns with
  | first :: rest, hns =>
    dsimp only
    split_ifs with hdown hdepth
    · exact nextServer_ok hin
    · exact .head (.single (.note ..)) (turnOk_error _)
    · -- a referral: the NS set, its glue, then the new zone cut
      rw [Bool.not_eq_true', Bool.not_eq_false, Bool.and_eq_true] at hdown
      have hnote : Move cfg src (sh, t) (sh, { t with referrals := t.referrals + 1 }) := .note ..
      have hinsert (t : Task) : Move cfg src (sh, t) (sh.insert s ⟨first.name, kTypeNS, kClassIN⟩
          (first :: rest) .authority (minTtl (first :: rest)), t) := by
        refine .insert _ _ hs _ _ _ _ false (insertOk_owner hm (by simp) ?_ fun r hr => ?_)
          ⟨by simp, fun _ r hr => minTtl_le hr, by simp, by simp, by simp,
            fun _ h => absurd h (show kTypeNS ≠ kNxdomainType by decide)⟩
        · exact fun h => absurd h (by decide)
        · obtain ⟨hmem, hisNs, hname⟩ := hns r hr
          exact ⟨hmem, hname first rfl, .inr ⟨rfl, hisNs⟩⟩
      exact .head (.head hnote (.head (hinsert _) (moves_cacheGlue hs hm _ _ _)))
        (nextServer_enterZone_ok hdown.2 hin.2)
  | [], _ =>
    dsimp only
    split_ifs
    · -- NODATA
      refine ⟨t, ?_, rfl, _, _, _, rfl, fun hr => absurd hr (by decide), by simp,
        .inl (findSoa_proof m.authority t.qname), fun _ => rfl⟩
      cases hsoa : findSoa m.authority t.qname with
      | none => exact .refl
      | some r => exact .single (.insert sh t hs _ _ _ _ true
          (insertOk_soa hm hsoa hinside fun h => .inl (hqtype ▸ h)) backed_soa)
    · exact nextServer_ok hin

theorem handleFiltered_ok (hs : src = some s) (hm : FilteredOf s m) {fuel rtt : ℕ} {sh : Shared}
    {t : Task} (hquery : s.query = t.target) (hzone : s.zone = t.zone) (hin : InZone t)
    (h : handleFiltered cfg env fuel s m sh t rtt = some turn) : TurnOk cfg src (sh, t) turn := by
  have hrate : Move cfg src (sh, t) (rate sh t (usable m t) rtt, t) := .select ..
  refine .head (.single hrate) ?_
  unfold handleFiltered at h
  simp only [Option.bind_eq_bind, Option.bind_eq_some_iff] at h
  obtain ⟨⟨sh', t', out⟩, hloop, h⟩ := h
  have hq : s.query.qtype = t.question.qtype := by rw [hquery]; rfl
  have hrank : (if m.header.aa then TrustRank.answer else .authority) = .answer →
      m.header.aa = true := by
    cases m.header.aa <;> simp
  have hok := answerLoop_ok hs hm hrank fuel false _ t hq hloop
  match out, hok with
  | .inl next, hok =>
    obtain rfl := Option.some.inj h
    exact hok
  | .inr true, hok => exact .head hok.1 (step_ok h)
  | .inr false, hok =>
    obtain rfl := Option.some.inj h
    obtain ⟨-, rfl⟩ := hok.2 rfl
    exact .head hok.1 (handleNegative_ok hs hm sh' t' hquery hzone hin)

theorem handleResponse_ok {fuel rtt : ℕ} {sh : Shared} {t : Task} (hin : InZone t)
    (hasked : t.asked ∈ t.servers) (h : handleResponse cfg env fuel sh t m rtt = some turn) :
    TurnOk cfg (some ⟨t.target, t.zone, t.asked, t.servers, m⟩) (sh, t) turn := by
  have hrate (useful : Bool) : Moves cfg (some ⟨t.target, t.zone, t.asked, t.servers, m⟩) (sh, t)
      (rate sh t useful rtt, t) := .single (.select ..)
  have hfiltered : FilteredOf ⟨t.target, t.zone, t.asked, t.servers, m⟩ (filterToBailiwick
      (if t.sent0x20 then restoreCase m t.qname else m) t.zone) := filteredOf_filterToBailiwick
  unfold handleResponse at h
  dsimp only at h
  generalize (if t.sent0x20 then restoreCase m t.qname else m) = response at h hfiltered
  split_ifs at h
  · obtain rfl := Option.some.inj h
    exact .head (hrate _) (nextServer_ok hin)
  · obtain rfl := Option.some.inj h
    exact ⟨t, hrate _, rfl, hasked, hin⟩
  · obtain rfl := Option.some.inj h
    exact .head (hrate _) (nextServer_ok hin)
  · exact handleFiltered_ok rfl hfiltered rfl rfl hin h

/-- The response a step handles, if there is one. -/
def sourceOf (t : Task) : Except UpstreamError Message → Option Source
  | .ok m => some ⟨t.target, t.zone, t.asked, t.servers, m⟩
  | .error _ => none

/-- **A completed upstream query.** -/
theorem onResponse_ok {fuel : ℕ} {sh : Shared} {t : Task} {response : Except UpstreamError Message}
    (hin : InZone t) (hasked : t.asked ∈ t.servers)
    (h : onResponse cfg env fuel sh t response = some turn) :
    TurnOk cfg (sourceOf t response) (sh, t) turn := by
  unfold onResponse at h
  split at h
  · obtain rfl := Option.some.inj h
    exact ⟨t, .refl, rfl, hasked, hin⟩
  · obtain rfl := Option.some.inj h
    exact ⟨_, .head (.mark ..) (.single (.note ..)), rfl, hasked, hin⟩
  · obtain rfl := Option.some.inj h
    split_ifs
    · exact .head (.head (.select ..) (.single (.note ..))) (nextServer_ok hin)
    · exact .head (.single (.select ..)) (nextServer_ok hin)
  · exact handleResponse_ok hin hasked h

/-- **A finished sub-query.** -/
theorem onChildDone_ok {sh : Shared} {t : Task} {child : Outcome} (hin : InZone t) :
    TurnOk cfg none (sh, t) (onChildDone cfg env sh t child) := by
  unfold onChildDone
  cases child with
  | error _ => exact nextServer_ok hin
  | ok r =>
    refine .head (moves_foldl_addServer _ t) (nextServer_ok ?_)
    exact inZone_of_place (place_foldl_addServer _ t) hin

end

end DNSentinel.Resolver.Turns
