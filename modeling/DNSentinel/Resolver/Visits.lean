import DNSentinel.Resolver.Turns

/-! # Zone visits

A task visits one zone cut after another; `reset_zone` begins a visit. Within a visit it keeps the
servers it knows, those it has tried, those that timed out and the rounds it has given these. This
module says what each step does to them: `next_server` (`Sought`), a step that starts over
(`Restarted`), a completed query (`Replied`). -/

namespace DNSentinel.Resolver.Visits

open DNSentinel.Types Store.Model Selection Data Resolver.Core Turns

/-- The servers of the zone a task visits, and how far they were tried. -/
structure Visit where
  number : ℕ
  servers : List Address
  tried : List Address
  timedOut : List Address
  retryRounds : UInt8

def visit (t : Task) : Visit := ⟨t.visits, t.servers, t.tried, t.timedOut, t.retryRounds⟩

/-- Another round for the servers that timed out. -/
def Visit.again (v : Visit) : Visit :=
  { v with
    tried := v.tried.filter fun s => !v.timedOut.contains s
    timedOut := []
    retryRounds := v.retryRounds + 1 }

/-- No server has been tried. -/
structure Visit.Fresh (v : Visit) : Prop where
  tried : v.tried = []
  timedOut : v.timedOut = []
  retryRounds : v.retryRounds = 0

/-- What `next_server` makes of a visit, and its last call. -/
inductive Sought : Visit → Visit → Next → Prop
  | ask {v : Visit} {address : Address} (hserver : address ∈ v.servers) (hnew : address ∉ v.tried) :
      Sought v v (.sendQuery address .udp)
  | spawn {v : Visit} (q : Question) (ancestry : List Question) : Sought v v (.spawn q ancestry)
  | finish {v : Visit} (result : Outcome) : Sought v v (.finish result)
  | again {v v' : Visit} {next : Next} (hrounds : v.retryRounds < kMaxRetryRounds)
      (h : Sought v.again v' next) : Sought v v' next

/-- A step that begins a new visit, or ends the task before that. -/
def Restarted (v v' : Visit) (next : Next) : Prop :=
  (v' = v ∧ ∃ result, next = .finish result) ∨
    ∃ u : Visit, v.number < u.number ∧ u.Fresh ∧ Sought u v' next

/-- The server just asked is given up: it cannot be reached, or it answers with an error, or its
answer is of no use. A response that is truncated over UDP is not looked at. -/
def givesUp (t : Task) : Except UpstreamError Message → Bool
  | .error e => e == .networkError
  | .ok m =>
    if m.header.tc then t.overTcp
    else decide (m.header.rcode ≠ RCode.NoError ∧ m.header.rcode ≠ RCode.NXDomain) ||
      !usable (filterToBailiwick (if t.sent0x20 then restoreCase m t.qname else m) t.zone) t

/-- What a completed query makes of the visit, and the last call. -/
inductive Replied (t : Task) (no0x20 : List Address) :
    Except UpstreamError Message → Visit → Next → Prop
  | spoofed : Replied t no0x20 (.error .spoofSuspected) (visit t) (.sendQuery t.asked .tcp)
  | recased (hmarked : t.asked ∈ no0x20) :
      Replied t no0x20 (.error .caseMismatch)
        { visit t with tried := t.tried.filter fun s => s != t.asked } (.sendQuery t.asked .udp)
  | timedOut {v : Visit} {next : Next}
      (h : Sought { visit t with timedOut := t.timedOut ++ [t.asked] } v next) :
      Replied t no0x20 (.error .timeout) v next
  | truncated {m : Message} (hkept : givesUp t (.ok m) = false) (hudp : t.overTcp = false) :
      Replied t no0x20 (.ok m) (visit t) (.sendQuery t.asked .tcp)
  | used {m : Message} {v : Visit} {next : Next} (hkept : givesUp t (.ok m) = false)
      (h : Restarted (visit t) v next) : Replied t no0x20 (.ok m) v next
  | gaveUp {result : Except UpstreamError Message} {v : Visit} {next : Next}
      (hgives : givesUp t result = true) (h : Sought (visit t) v next) :
      Replied t no0x20 result v next

variable {cfg : Config} {env : Random} {sh : Shared} {t : Task} {turn : Turn}

/-! ### The next server -/

theorem visit_gluelessLoop (cfg : Config) : ∀ (names : List Name) (t : Task),
    visit (gluelessLoop cfg names t).1 = visit t
  | [], _ => rfl
  | name :: rest, t => by
    unfold gluelessLoop
    dsimp only
    split_ifs
    · exact visit_gluelessLoop cfg rest _
    · rfl
    · rfl

theorem nextServerLoop_sought : ∀ (rounds : ℕ) (sh : Shared) (t : Task),
    Sought (visit t) (visit (nextServerLoop cfg env rounds sh t).2.1)
      (nextServerLoop cfg env rounds sh t).2.2
  | 0, _, _ => .finish _
  | rounds + 1, sh, t => by
    have hless := visit_gluelessLoop cfg t.unresolved t
    unfold nextServerLoop
    dsimp only
    split_ifs with huntried
    · have hne : (t.servers.filter fun s => !t.tried.contains s) ≠ [] := by simpa using huntried
      have hpick := List.mem_filter.mp (sh.selection.pick_mem env sh.draws sh.now hne)
      have hnew : (sh.selection.pick env sh.draws sh.now
          (t.servers.filter fun s => !t.tried.contains s)).1 ∉ t.tried := by simpa using hpick.2
      exact .ask hpick.1 hnew
    · generalize gluelessLoop cfg t.unresolved t = looked at hless ⊢
      obtain ⟨t', query⟩ := looked
      cases query with
      | some query =>
        rw [show visit t = visit t' from hless.symm]
        exact .spawn query.1 query.2
      | none =>
        rw [show visit t = visit t' from hless.symm]
        dsimp only
        split_ifs with hagain
        · rw [Bool.and_eq_true, decide_eq_true_iff] at hagain
          have hsought := nextServerLoop_sought rounds sh
            { t' with
              retryRounds := t'.retryRounds + 1
              tried := t'.tried.filter fun s => !t'.timedOut.contains s
              timedOut := [] }
          exact .again hagain.2 hsought
        · exact .finish _

theorem nextServer_sought (cfg : Config) (env : Random) (sh : Shared) (t : Task) :
    Sought (visit t) (visit (nextServer cfg env sh t).2.1) (nextServer cfg env sh t).2.2 :=
  nextServerLoop_sought _ sh t

theorem sought_number {v v' : Visit} {next : Next} (h : Sought v v' next) :
    v'.number = v.number ∧ v'.servers = v.servers := by
  induction h with
  | again _ _ ih => exact ih
  | _ => exact ⟨rfl, rfl⟩

/-- **A finished sub-query**: its addresses are added to the servers. -/
theorem onChildDone_sought (cfg : Config) (env : Random) (sh : Shared) (t : Task) (child : Outcome) :
    ∃ servers, t.servers ⊆ servers ∧
      Sought { visit t with servers } (visit (onChildDone cfg env sh t child).2.1)
        (onChildDone cfg env sh t child).2.2 := by
  unfold onChildDone
  cases child with
  | error _ => exact ⟨t.servers, List.Subset.refl _, nextServer_sought cfg env sh t⟩
  | ok r =>
    obtain ⟨servers, hsub, heq⟩ := foldl_addServer_eq (ipv4Addresses r.response.answers) t
    refine ⟨servers, hsub, ?_⟩
    dsimp only
    rw [heq]
    exact nextServer_sought cfg env sh { t with servers }

/-! ### From the cache -/

/-- A task that has just entered a zone. -/
def Entered (t t' : Task) : Prop :=
  ∃ zone servers unresolved, t' = { resetZone t zone with servers, unresolved }

theorem closestZoneLoop_entered : ∀ (fuel : ℕ) (sh : Shared) (t : Task) (z : Name),
    Entered t (closestZoneLoop cfg fuel sh t z).2
  | 0, sh, t, z => ⟨{}, enterZone_eq cfg sh t {} cfg.hints.ns []⟩
  | fuel + 1, sh, t, z => by
    have hcut : ∀ t' ∈ (zoneCutAt cfg sh t z).2, Entered t t' := by
      intro t' ht'
      unfold zoneCutAt at ht'
      split at ht'
      · next servers _ =>
        obtain rfl := Option.some.inj ht'
        obtain ⟨added, -, heq⟩ := foldl_addServer_eq servers (resetZone t z)
        exact ⟨z, added, [], heq⟩
      · split at ht'
        · next e sh' _ =>
          split_ifs at ht'
          · obtain rfl := Option.some.inj ht'
            exact ⟨z, enterZone_eq cfg sh' t z e.records []⟩
          · simp at ht'
        · simp at ht'
    unfold closestZoneLoop
    generalize zoneCutAt cfg sh t z = cut at hcut ⊢
    obtain ⟨sh', t'⟩ := cut
    cases t' with
    | some t' => exact hcut t' rfl
    | none =>
      dsimp only
      split_ifs
      · exact ⟨{}, enterZone_eq cfg sh' t {} cfg.hints.ns []⟩
      · exact closestZoneLoop_entered fuel sh' t z.parent

theorem Entered.restarted {t' : Task} (h : Entered t t') (cfg : Config) (env : Random) (sh : Shared) :
    Restarted (visit t) (visit (nextServer cfg env sh t').2.1) (nextServer cfg env sh t').2.2 := by
  obtain ⟨zone, servers, unresolved, rfl⟩ := h
  exact .inr ⟨_, Nat.lt_succ_self _, ⟨rfl, rfl, rfl⟩, nextServer_sought cfg env sh _⟩

theorem askClosestZone_restarted (cfg : Config) (env : Random) (sh : Shared) (t : Task) :
    Restarted (visit t) (visit (askClosestZone cfg env sh t).2.1) (askClosestZone cfg env sh t).2.2 :=
  (closestZoneLoop_entered (t.qname.labelCount + 1) sh t t.qname).restarted cfg env _

theorem stepLoop_restarted : ∀ (fuel : ℕ) (sh : Shared) (t : Task) {turn : Turn},
    stepLoop cfg env fuel sh t = some turn → Restarted (visit t) (visit turn.2.1) turn.2.2
  | 0, _, _, _, h => by simp [stepLoop] at h
  | fuel + 1, sh, t, turn, h => by
    unfold stepLoop at h
    dsimp only at h
    split at h
    · obtain rfl := Option.some.inj h
      exact .inl ⟨rfl, _, rfl⟩
    · split at h
      · split_ifs at h <;> obtain rfl := Option.some.inj h <;> exact .inl ⟨rfl, _, rfl⟩
      · split_ifs at h
        · obtain rfl := Option.some.inj h
          exact askClosestZone_restarted ..
        · split at h
          · obtain rfl := Option.some.inj h
            exact askClosestZone_restarted ..
          · split at h
            · obtain rfl := Option.some.inj h
              exact .inl ⟨rfl, _, rfl⟩
            · next t' ht' =>
              obtain ⟨-, target, -, rfl⟩ := followCname_some ht'
              have hrest := stepLoop_restarted fuel _ _ h
              exact hrest

/-- **A start, or a restart under another name.** -/
theorem step_restarted {fuel : ℕ} (h : step cfg env fuel sh t = some turn) :
    Restarted (visit t) (visit turn.2.1) turn.2.2 := by
  unfold step at h
  split_ifs at h
  · obtain rfl := Option.some.inj h
    exact .inl ⟨rfl, _, rfl⟩
  · exact stepLoop_restarted fuel sh t h

/-! ### A response -/

/-- The answer section has the records asked for, or a CNAME to follow. -/
def answered (m : Message) (t : Task) : Bool :=
  !(collect m.answers t.qname t.question.qtype).isEmpty ||
    (t.question.qtype != kTypeCNAME && !(collect m.answers t.qname kTypeCNAME).isEmpty)

/-- The loop over the answer section stays in the visit. -/
theorem answerLoop_visit {source : Source} {m : Message} {rank : TrustRank} :
    ∀ (fuel : ℕ) (followed : Bool) (sh : Shared) (t : Task) {sh' : Shared} {t' : Task}
      {out : Next ⊕ Bool}, answerLoop cfg source m rank fuel followed sh t = some (sh', t', out) →
      visit t' = visit t ∧
      match out with
      | .inl next => answered m t = true ∧ ∃ result, next = .finish result
      | .inr again => again = (followed || answered m t) ∧ (answered m t = false → t' = t)
  | 0, _, _, _, _, _, _, h => by simp [answerLoop] at h
  | fuel + 1, followed, sh, t, sh', t', out, h => by
    unfold answerLoop at h
    dsimp only at h
    by_cases hrrset : (!(collect m.answers t.qname t.question.qtype).isEmpty) = true
    · rw [if_pos hrrset] at h
      obtain ⟨-, rfl, rfl⟩ := Option.some.inj h
      exact ⟨rfl, by rw [answered, hrrset, Bool.true_or], _, rfl⟩
    rw [if_neg hrrset] at h
    rw [Bool.not_eq_true] at hrrset
    by_cases hcname : t.question.qtype = kTypeCNAME
    · rw [if_pos hcname] at h
      obtain ⟨-, rfl, rfl⟩ := Option.some.inj h
      have hno : answered m t = false := by
        rw [answered, hrrset]
        simp [hcname]
      exact ⟨rfl, by simp [hno], fun _ => rfl⟩
    · rw [if_neg hcname] at h
      split at h
      · next hnone =>
        obtain ⟨-, rfl, rfl⟩ := Option.some.inj h
        have hno : answered m t = false := by
          rw [answered, hrrset]
          simp [hnone]
        exact ⟨rfl, by simp [hno], fun _ => rfl⟩
      · next cname rest hsome =>
        have hyes : answered m t = true := by simp [answered, hsome, hcname]
        split at h
        · obtain ⟨-, rfl, rfl⟩ := Option.some.inj h
          exact ⟨rfl, hyes, _, rfl⟩
        · next t₁ ht₁ =>
          obtain ⟨-, target, -, rfl⟩ := followCname_some ht₁
          obtain ⟨hsame, hout⟩ := answerLoop_visit fuel true _ _ h
          refine ⟨hsame, ?_⟩
          cases out with
          | inl next => exact ⟨hyes, hout.2⟩
          | inr again => exact ⟨by simp [hout.1, hyes], by simp [hyes]⟩

theorem usable_eq (m : Message) (t : Task) : usable m t = (answered m t ||
    m.header.rcode == RCode.NXDomain ||
    (if (if m.header.aa then [] else referralNs m.authority).isEmpty then
      m.header.aa || (findSoa m.authority t.qname).isSome
    else match (if m.header.aa then [] else referralNs m.authority) with
      | first :: _ => decide (t.zone.labelCount < first.name.labelCount) &&
          t.qname.isSubdomainOf first.name
      | [] => false)) := rfl

theorem handleNegative_visit {source : Source} {m : Message} (hno : answered m t = false) :
    if usable m t then
      Restarted (visit t) (visit (handleNegative cfg env source m sh t).2.1)
        (handleNegative cfg env source m sh t).2.2
    else
      Sought (visit t) (visit (handleNegative cfg env source m sh t).2.1)
        (handleNegative cfg env source m sh t).2.2 := by
  rw [usable_eq, hno, Bool.false_or]
  unfold handleNegative
  dsimp only
  by_cases hnx : m.header.rcode = RCode.NXDomain
  · rw [if_pos hnx]
    simp only [hnx, beq_self_eq_true, Bool.true_or, if_true]
    exact .inl ⟨rfl, _, rfl⟩
  rw [if_neg hnx, show (m.header.rcode == RCode.NXDomain) = false by simpa using hnx, Bool.false_or]
  generalize (if m.header.aa then [] else referralNs m.authority) = ns
  match ns with
  | first :: rest =>
    dsimp only [List.isEmpty_cons]
    by_cases hdown : (decide (t.zone.labelCount < first.name.labelCount) &&
      t.qname.isSubdomainOf first.name) = true
    · simp only [hdown, Bool.not_true, Bool.false_eq_true, if_false, if_true]
      split_ifs
      · exact .inl ⟨rfl, _, rfl⟩
      · refine Entered.restarted (t := { t with referrals := t.referrals + 1 }) ?_ cfg env _
        exact ⟨first.name, enterZone_eq ..⟩
    · simp only [hdown, Bool.not_false, Bool.false_eq_true, if_false, if_true]
      exact nextServer_sought cfg env sh t
  | [] =>
    simp only [List.isEmpty_nil, if_true]
    split_ifs
    · exact .inl ⟨rfl, _, rfl⟩
    · exact nextServer_sought cfg env sh t

theorem handleFiltered_visit {source : Source} {m : Message} {fuel rtt : ℕ}
    (h : handleFiltered cfg env fuel source m sh t rtt = some turn) :
    if usable m t then Restarted (visit t) (visit turn.2.1) turn.2.2
    else Sought (visit t) (visit turn.2.1) turn.2.2 := by
  unfold handleFiltered at h
  simp only [Option.bind_eq_bind, Option.bind_eq_some_iff] at h
  obtain ⟨⟨sh', t', out⟩, hloop, h⟩ := h
  obtain ⟨hsame, hout⟩ := answerLoop_visit fuel false _ t hloop
  have huse (hyes : answered m t = true) : usable m t = true := by
    rw [usable_eq, hyes, Bool.true_or, Bool.true_or]
  match out, hout with
  | .inl next, ⟨hyes, result, hnext⟩ =>
    obtain rfl := Option.some.inj h
    rw [if_pos (huse hyes)]
    exact .inl ⟨hsame, result, hnext⟩
  | .inr true, ⟨hyes, _⟩ =>
    rw [if_pos (huse (by simpa using hyes.symm)), ← hsame]
    exact step_restarted h
  | .inr false, ⟨hno, hback⟩ =>
    obtain rfl := Option.some.inj h
    have hno : answered m t = false := by simpa using hno.symm
    obtain rfl := hback hno
    exact handleNegative_visit hno

theorem handleResponse_replied {m : Message} {fuel rtt : ℕ}
    (h : handleResponse cfg env fuel sh t m rtt = some turn) :
    Replied t turn.1.no0x20 (.ok m) (visit turn.2.1) turn.2.2 := by
  have hheader : (if t.sent0x20 then restoreCase m t.qname else m).header = m.header := by
    split_ifs <;> rfl
  unfold handleResponse at h
  dsimp only at h
  rw [hheader] at h
  by_cases htc : m.header.tc = true
  · rw [if_pos htc] at h
    split_ifs at h with htcp <;> obtain rfl := Option.some.inj h
    · exact .gaveUp (by simp [givesUp, htc, htcp]) (nextServer_sought cfg env _ t)
    · rw [Bool.not_eq_true] at htcp
      exact .truncated (by simp [givesUp, htc, htcp]) htcp
  rw [if_neg htc] at h
  by_cases herror : m.header.rcode ≠ RCode.NoError ∧ m.header.rcode ≠ RCode.NXDomain
  · rw [if_pos herror] at h
    obtain rfl := Option.some.inj h
    refine .gaveUp ?_ (nextServer_sought cfg env _ t)
    dsimp only [givesUp]
    rw [if_neg htc, decide_eq_true herror, Bool.true_or]
  · rw [if_neg herror] at h
    have hgives : givesUp t (.ok m) = !usable (filterToBailiwick
        (if t.sent0x20 then restoreCase m t.qname else m) t.zone) t := by
      dsimp only [givesUp]
      rw [if_neg htc, decide_eq_false herror, Bool.false_or]
    have hvisit := handleFiltered_visit h
    cases huse : usable (filterToBailiwick
        (if t.sent0x20 then restoreCase m t.qname else m) t.zone) t with
    | true =>
      rw [if_pos huse] at hvisit
      exact .used (by rw [hgives, huse]; rfl) hvisit
    | false =>
      rw [if_neg (Bool.eq_false_iff.mp huse)] at hvisit
      exact .gaveUp (by rw [hgives, huse]; rfl) hvisit

/-- **A completed upstream query.** -/
theorem onResponse_replied {fuel : ℕ} {result : Except UpstreamError Message}
    (h : onResponse cfg env fuel sh t result = some turn) :
    Replied t turn.1.no0x20 result (visit turn.2.1) turn.2.2 := by
  unfold onResponse at h
  split at h
  · obtain rfl := Option.some.inj h
    exact .spoofed
  · obtain rfl := Option.some.inj h
    exact .recased List.mem_cons_self
  · next e hspoof hcase =>
    obtain rfl := Option.some.inj h
    cases e with
    | timeout =>
      have hsought := nextServer_sought cfg env
        { sh with selection := sh.selection.recordFailure sh.now t.asked }
        { t with timeouts := t.timeouts + 1, timedOut := t.timedOut ++ [t.asked] }
      exact .timedOut hsought
    | networkError => exact .gaveUp rfl (nextServer_sought cfg env _ t)
    | spoofSuspected => exact absurd rfl (hspoof)
    | caseMismatch => exact absurd rfl (hcase)
  · exact handleResponse_replied h

end DNSentinel.Resolver.Visits
