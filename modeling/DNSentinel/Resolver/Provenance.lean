import DNSentinel.Resolver.Events

/-! # Where cached data is from

Every entry the resolver inserts is made while handling a response. That response was accepted for a
query about a name at or below the zone being asked, sent to one of that zone's servers, and what is
inserted keeps to the response and to the zone (`InsertOk`). A server asked for a zone cannot plant
data for names outside it. -/

namespace DNSentinel.Resolver.Provenance

open DNSentinel.Types Lib.Pairs Lib.Runs Store.Model Selection Data Resolver.Core Machine Turns
open Effects Phases Wiring Events

variable {cfg : Config} {env : Random} {w w' : World} {a b : Phase × World}

/-! ### Responses -/

/-- A type that clients asked for, or that the resolver asks for itself. -/
def Wanted (trace : List Obs) (qtype : UInt16) : Prop :=
  qtype = kTypeA ∨ ∃ cb q, .resolve cb q ∈ trace ∧ q.qtype = qtype

/-- The response of `s` was accepted for its query, which had been sent to one of the servers of its
zone. -/
structure Received (trace : List Obs) (s : Source) : Prop where
  inside : s.query.qname.isSubdomainOf s.zone = true
  server : s.server ∈ s.servers
  wanted : Wanted trace s.query.qtype
  accepted : ∃ id visit budget transport q earlier,
    .accepted id q s.response :: earlier <:+ trace ∧
      .sent id visit budget s.server transport q ∈ earlier ∧ (q == s.query) = true

theorem Wanted.mono {trace trace' : List Obs} {qtype : UInt16} (h : Wanted trace qtype)
    (hsub : trace <:+ trace') : Wanted trace' qtype := by
  rcases h with h | ⟨cb, q, hq, htype⟩
  · exact .inl h
  · exact .inr ⟨cb, q, hsub.subset hq, htype⟩

theorem Received.mono {trace trace' : List Obs} {s : Source} (h : Received trace s)
    (hsub : trace <:+ trace') : Received trace' s := by
  obtain ⟨id, visit, budget, transport, q, earlier, hacc, hrest⟩ := h.accepted
  exact ⟨h.inside, h.server, h.wanted.mono hsub, id, visit, budget, transport, q, earlier,
    hacc.trans hsub, hrest⟩

/-- Queries, responses being handled, and insertions. -/
structure SourcesOk (s : Phase × World) : Prop where
  tasks : ∀ i t, s.2.tasks i = some t → Wanted s.2.trace t.question.qtype
  pending : ∀ q x, s.2.pending q = some x →
    ∃ visit budget transport, .sent x.task visit budget x.server transport x.question ∈ s.2.trace
  running : ∀ id wake src, s.1 = .running id wake → wake.source = some src →
    Received s.2.trace src
  inserts : ∀ i ∈ s.2.shared.inserts, InsertOk i ∧ Received s.2.trace i.source

/-! ### Responses come from outside -/

/-- The responses that were accepted, the latest first. -/
def responses (w : World) : List Message :=
  w.trace.filterMap fun
    | .accepted _ _ m => some m
    | _ => none

theorem responses_perform (cfg : Config) (env : Random) (w : World) (id : ℕ) (turn : Turn) :
    responses (perform cfg env w id turn).1 = responses w := by
  obtain ⟨sh, t, next⟩ := turn
  cases next with
  | finish result => rfl
  | sendQuery address transport =>
    unfold perform sendQuery
    dsimp only
    split_ifs <;> rfl
  | spawn q ancestry => rfl

theorem responses_cancel : ∀ (fuel : ℕ) (w : World) (id : ℕ),
    responses (cancel fuel w id) = responses w
  | 0, _, _ => rfl
  | fuel + 1, w, id => by
    unfold cancel
    split
    · rfl
    · split
      · rfl
      · exact responses_cancel fuel _ _

theorem responses_wakeParent (cfg : Config) (env : Random) (w : World) (parent : ℕ)
    (result : Outcome) :
    responses (wakeParent cfg env w parent result).1 = responses w := by
  unfold wakeParent
  split
  · rfl
  · exact responses_perform cfg env _ _ _

theorem responses_finish : ∀ (fuel : ℕ) (w : World) (id : ℕ) (result : Outcome),
    responses (finish cfg env fuel w id result) = responses w
  | 0, _, _, _ => rfl
  | fuel + 1, w, id, result => by
    unfold finish
    split
    · rfl
    · next t _ =>
      have hgone : responses (release w id) = responses w := responses_cancel _ w id
      dsimp only
      split
      · exact hgone
      · next parent _ =>
        have hwake := responses_wakeParent cfg env
          ((release w id).log (.finished id t (complete (release w id) t result))) parent
          (complete (release w id) t result)
        split
        · next w' hw' =>
          rw [hw'] at hwake
          exact hwake.trans hgone
        · next w' next hw' =>
          rw [hw'] at hwake
          exact (responses_finish fuel w' parent next).trans (hwake.trans hgone)

theorem responses_runTurn (w : World) (id : ℕ) (turn : Turn) :
    responses (runTurn cfg env w id turn) = responses w := by
  have hperform := responses_perform cfg env w id turn
  unfold runTurn
  split
  · next hw => rwa [hw] at hperform
  · next hw =>
    rw [hw] at hperform
    exact (responses_finish _ _ _ _).trans hperform

theorem responses_onTimer {fuel : ℕ} {action : TimerAction}
    (h : onTimer cfg env fuel w action = some w') : responses w' = responses w := by
  unfold onTimer at h
  split at h <;> split at h
  · rw [Option.some.inj h]
  · obtain ⟨turn, -, rfl⟩ := Option.map_eq_some_iff.mp h
    exact responses_runTurn _ _ turn
  · rw [Option.some.inj h]
  · rw [← Option.some.inj h]
    exact responses_finish _ _ _ _

theorem responses_onUpstream {fuel : ℕ} {x : Pending} {result : Except UpstreamError Message}
    (h : onUpstream cfg env fuel w x result = some w') :
    responses w' = responses w ∨ ∃ m, result = .ok m ∧ responses w' = m :: responses w := by
  unfold onUpstream at h
  split at h
  · rw [Option.some.inj h]
    exact .inl rfl
  · obtain ⟨turn, -, rfl⟩ := Option.map_eq_some_iff.mp h
    rw [responses_runTurn]
    cases result with
    | ok m => exact .inr ⟨m, rfl, rfl⟩
    | error e => cases e <;> exact .inl rfl

theorem responses_step {e : Event} (h : Step cfg env w e w') :
    responses w' = responses w ∨
      ∃ qid m, e = .upstream qid (.ok m) ∧ responses w' = m :: responses w := by
  obtain ⟨fuel, h⟩ := h
  cases e with
  | resolve q =>
    rw [← Option.some.inj h]
    unfold resolveClient
    dsimp only
    split
    · split
      · exact .inl rfl
      · rw [spawnClient_eq]
        exact .inl rfl
    · rw [spawnClient_eq]
      exact .inl rfl
  | timer tid =>
    simp only [apply] at h
    split at h
    · split_ifs at h
      have hsame := responses_onTimer h
      exact .inl hsame
    · cases h
  | upstream qid result =>
    simp only [apply] at h
    split at h
    · split_ifs at h
      rcases responses_onUpstream h with hsame | ⟨m, rfl, hm⟩
      · exact .inl hsame
      · exact .inr ⟨qid, m, rfl, hm⟩
    · cases h
  | call =>
    simp only [apply] at h
    split at h
    · cases h
    · rw [← Option.some.inj h]
      exact .inl rfl
  | wait ns =>
    simp only [apply] at h
    split at h
    · rw [← Option.some.inj h]
      exact .inl rfl
    · cases h
  | evict key | flush =>
    rw [← Option.some.inj h]
    exact .inl rfl

theorem responses_run {es : List Event} (h : Run (Step cfg env) w es w') :
    ∀ m ∈ responses w', m ∈ responses w ∨ ∃ qid, .upstream qid (.ok m) ∈ es := by
  induction h with
  | nil => exact fun _ hm => .inl hm
  | cons hstep _ ih =>
    intro m hm
    rcases ih m hm with hm | ⟨qid, hqid⟩
    · rcases responses_step hstep with hsame | ⟨qid, m', rfl, hnew⟩
      · exact .inl (hsame ▸ hm)
      · rw [hnew] at hm
        rcases List.mem_cons.mp hm with rfl | hm
        · exact .inr ⟨qid, List.mem_cons_self⟩
        · exact .inl hm
    · exact .inr ⟨qid, List.mem_cons_of_mem _ hqid⟩

theorem accepted_upstream {sh : Shared} {es : List Event} {id : ℕ} {q : Question} {m : Message}
    (h : Run (Step cfg env) { shared := sh } es w) (hm : .accepted id q m ∈ w.trace) :
    ∃ qid, .upstream qid (.ok m) ∈ es := by
  have hmem : m ∈ responses w := List.mem_filterMap.mpr ⟨_, hm, rfl⟩
  rcases responses_run h m hmem with hnil | hes
  · cases hnil
  · exact hes

/-! ### What the changes do -/

theorem wanted_micro (hab : Micro cfg env a b)
    (h : ∀ i t, a.2.tasks i = some t → Wanted a.2.trace t.question.qtype) :
    ∀ i t, b.2.tasks i = some t → Wanted b.2.trace t.question.qtype := by
  refine tasks_micro (P := fun _ t => Wanted b.2.trace t.question.qtype) hab ?_ ?_ ?_ ?_ ?_
  · intro _ t t' ht hf
    simp only [findings, Prod.mk.injEq] at hf
    rwa [hf.1]
  · exact fun t _ hq _ => .inr ⟨_, _, hq, rfl⟩
  · intro wake t₀ sh t q ancestry hstep _ _ u hu
    obtain ⟨-, -, -, -, -, -, -, htype⟩ := hstep.ok
    simp only [findings, Prod.mk.injEq] at hu
    rw [hu.1]
    exact .inl htype
  · intro _ wake t turn hstep ht
    have hq : turn.2.1.question = t.question := congrArg Life.question (turn_life hstep.ok)
    rwa [hq]
  · exact fun i t ht => (h i t ht).mono (trace_micro hab)

/-- A query in flight was in flight before, or has just been sent. -/
theorem pending_micro (hab : Micro cfg env a b) {q : ℕ} {x : Pending}
    (hx : b.2.pending q = some x) : a.2.pending q = some x ∨
      ∃ visit budget transport,
        .sent x.task visit budget x.server transport x.question ∈ b.2.trace := by
  cases hab with
  | client _ =>
    rw [spawnClient_eq] at hx
    exact .inl hx
  | @upstream w qid _ _ _ _ _ _ =>
    have hleft : without w.pending (some qid) q = some x := hx
    exact .inl (without_some hleft)
  | @send w _ id _ _ t _ _ transport _ _ hsend =>
    obtain ⟨-, u, y, draws, hu, htask, ⟨hserver, -⟩, rfl⟩ := sendQuery_sent hsend
    rcases update_some hx with ⟨-, rfl⟩ | ⟨-, hx⟩
    · refine .inr ⟨t.visits, t.budget, transport, ?_⟩
      rw [htask, hserver, hu]
      exact List.mem_cons_self
    · exact .inl hx
  | spent _ _ hsend =>
    obtain ⟨rfl, -⟩ := sendQuery_over hsend
    exact .inl hx
  | drop _ | dropChild _ => exact .inl (without_some hx)
  | _ => exact .inl hx

/-- An insertion was made before, or is made for the response being handled. -/
theorem inserts_micro (hab : Micro cfg env a b) {i : Insert} (hi : i ∈ b.2.shared.inserts) :
    i ∈ a.2.shared.inserts ∨
      InsertOk i ∧ ∃ id wake, a.1 = .running id wake ∧ wake.source = some i.source := by
  have hturn : ∀ {id wake t₀ turn}, a.1 = .running id wake → StepOk cfg wake a.2.shared t₀ turn →
      i ∈ turn.1.inserts → i ∈ a.2.shared.inserts ∨
        InsertOk i ∧ ∃ id wake, a.1 = .running id wake ∧ wake.source = some i.source := by
    intro id wake t₀ turn hphase hstep hmem
    obtain ⟨t, hmoves, -⟩ := hstep.ok
    obtain ⟨new, hnew, hok⟩ := moves_inserts hmoves
    rw [show turn.1.inserts = new ++ a.2.shared.inserts from hnew] at hmem
    rcases List.mem_append.mp hmem with hmem | hmem
    · exact .inr ⟨(hok i hmem).1, id, wake, hphase, (hok i hmem).2⟩
    · exact .inl hmem
  cases hab with
  | client _ =>
    rw [spawnClient_eq] at hi
    exact .inl hi
  | shared h => exact .inl (h.inserts ▸ hi)
  | send _ hstep hsend =>
    obtain ⟨-, u, y, draws, -, -, -, rfl⟩ := sendQuery_sent hsend
    exact hturn rfl hstep hi
  | spent _ hstep hsend =>
    obtain ⟨rfl, -⟩ := sendQuery_over hsend
    exact hturn rfl hstep hi
  | child _ hstep | done _ hstep => exact hturn rfl hstep hi
  | _ => exact .inl hi

/-- A response that comes to be handled was accepted for a query of the task's. -/
theorem received_micro (hw : Wired a.1 a.2) (ha : SourcesOk a) (hab : Micro cfg env a b) {id : ℕ}
    {wake : Wake} {src : Source} (hphase : b.1 = .running id wake) (hsrc : wake.source = some src) :
    Received b.2.trace src := by
  cases hab with
  | @upstream w qid x t result hx hok ht =>
    obtain ⟨-, rfl⟩ := Phase.running.inj hphase
    obtain ⟨u, hu, hup⟩ := hw.pending_task hx
    obtain rfl : u = t := Option.some.inj (hu.symm.trans ht)
    have hsome : u.upstream.isSome = true := by simp [hup]
    have htask := hw.tasks x.task u ht
    obtain ⟨hserver, hquestion, -⟩ := hw.queries qid x hx u ht
    obtain ⟨visit, budget, transport, hsent⟩ := ha.pending qid x hx
    cases result with
    | error e => simp [Wake.source, sourceOf] at hsrc
    | ok m =>
      obtain rfl := Option.some.inj hsrc
      refine ⟨(htask.placed (.inl hsome)).1, htask.asked hsome, ?_, x.task, visit, budget, transport,
        x.question, .wake x.task u.budget :: w.trace, List.suffix_rfl, ?_, hquestion⟩
      · exact (ha.tasks x.task u ht).mono (.trans (List.suffix_cons ..) (List.suffix_append ..))
      · rw [show u.asked = x.server from hserver.symm]
        exact List.mem_cons_of_mem _ hsent
  | start _ _ | wakeParent _ _ =>
    obtain ⟨-, rfl⟩ := Phase.running.inj hphase
    exact absurd hsrc (by simp [Wake.source])
  | _ => exact absurd hphase (by simp)

theorem sources_micro (hw : Wired a.1 a.2) (hab : Micro cfg env a b) (ha : SourcesOk a) :
    SourcesOk b where
  tasks := wanted_micro hab ha.tasks
  pending q x hx := by
    rcases pending_micro hab hx with hx | hsent
    · obtain ⟨visit, budget, transport, hsent⟩ := ha.pending q x hx
      exact ⟨visit, budget, transport, (trace_micro hab).subset hsent⟩
    · exact hsent
  running _ _ _ := received_micro hw ha hab
  inserts i hi := by
    rcases inserts_micro hab hi with hi | ⟨hok, id, wake, hphase, hsrc⟩
    · exact ⟨(ha.inserts i hi).1, (ha.inserts i hi).2.mono (trace_micro hab)⟩
    · exact ⟨hok, (ha.running id wake _ hphase hsrc).mono (trace_micro hab)⟩

theorem sources_run {sh : Shared} {es : List Event} (hsh : sh.inserts = [])
    (h : Run (Step cfg env) { shared := sh } es w) : SourcesOk (.idle, w) := by
  refine run_keeps (fun _ _ => sources_micro) h (wired_init sh) ⟨by simp, by simp, by simp, ?_⟩
  intro i hi
  rw [show ({ shared := sh } : World).shared.inserts = [] from hsh] at hi
  exact absurd hi List.not_mem_nil

/-! ### Bailiwick -/

/-- **Every insertion keeps to the response it is made for and to the zone that was asked**, and a
task with a query in flight asks a server of a zone its name is in. -/
theorem inserts_contained {sh : Shared} {es : List Event} (hsh : sh.inserts = [])
    (h : Run (Step cfg env) { shared := sh } es w) :
    (∀ i ∈ w.shared.inserts, InsertOk i ∧ Received w.trace i.source) ∧
      ∀ q x, w.pending q = some x → ∃ t, w.tasks x.task = some t ∧
        t.qname.isSubdomainOf t.zone = true ∧ x.server ∈ t.servers ∧
        (x.question == t.target) = true := by
  have hw : Wired .idle w := wired_run h (wired_init sh)
  refine ⟨(sources_run hsh h).inserts, fun q x hx => ?_⟩
  obtain ⟨t, ht, hup⟩ := hw.pending_task hx
  have hsome : t.upstream.isSome = true := by simp [hup]
  obtain ⟨hserver, hquestion, -⟩ := hw.queries q x hx t ht
  have htask := hw.tasks x.task t ht
  exact ⟨t, ht, (htask.placed (.inl hsome)).1, hserver ▸ htask.asked hsome, hquestion⟩

/-- A referral with glue, and glue for a name elsewhere. -/
def referredEvents : List Event :=
  [.resolve ⟨⟨[[98], [97]], [[98], [97]]⟩, RRType.A, kClassIN⟩, .timer 1,
    .upstream 1 (.ok (reply ⟨⟨[[98], [97]], [[98], [97]]⟩, RRType.A, kClassIN⟩
      { authority := [{ name := letter 97, type := RRType.NS, rdata := .ns (letter 110), ttl := 60 }]
        additional := [{ name := letter 110, rdata := .a 7, ttl := 60 },
          { name := letter 120, rdata := .a 8, ttl := 60 }] }))]

theorem inserts_contained_referred :
    ∃ w, Run (Step sampleConfig fun _ => 0) sampleStart referredEvents w ∧
      (w.shared.inserts.length == 2 && (w.pending 2).isSome) = true ∧
      ∀ i ∈ w.shared.inserts, InsertOk i ∧ Received w.trace i.source := by
  obtain ⟨w, hrun, hmade⟩ := exists_run referredEvents
    (P := fun w => w.shared.inserts.length == 2 && (w.pending 2).isSome) (by decide +kernel)
  have hrun' : Run (Step sampleConfig fun _ => 0) { shared := sampleStart.shared } _ w := hrun
  exact ⟨w, hrun, hmade, (inserts_contained rfl hrun').1⟩

end DNSentinel.Resolver.Provenance
