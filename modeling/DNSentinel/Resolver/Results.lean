import DNSentinel.Resolver.Provenance

/-! # What a resolution finishes with

A result is made by the step that finishes a task, and recorded when the task is gone. So a fact
about results need only be shown of that step (`results_micro`). From a cache that holds what was
inserted only (`SharedOk`): NXDOMAIN was said by a server, about the name the resolution ended at
(`Denied`); and the answers are the chain of CNAMEs followed, then records that are none
(`Chained`). -/

namespace DNSentinel.Resolver.Results

open DNSentinel.Types Lib.Pairs Lib.Runs Store.Model Store.Contents Selection Data Resolver.Core
open Machine Turns Effects Phases Wiring Events Provenance

variable {cfg : Config} {env : Random} {w : World} {a b : Phase × World}

/-! ### The rule for results -/

theorem suffix_of_cons {o o' : Obs} {l trace : List Obs} (h : o :: l <:+ o' :: trace)
    (hne : o ≠ o') : o :: l <:+ trace := by
  rcases List.suffix_cons_iff.mp h with heq | h
  · exact absurd (List.cons.inj heq).1 hne
  · exact h

/-- A result that is recorded was recorded before, or is that of the task just released. -/
theorem finished_micro (hab : Micro cfg env a b) {id : ℕ} {t : Task} {r : Outcome} {l : List Obs}
    (h : .finished id t r :: l <:+ b.2.trace) : .finished id t r :: l <:+ a.2.trace ∨
      l = a.2.trace ∧ ∃ result, a.1 = .releasing none id t result ∧ r = complete a.2 t result := by
  cases hab with
  | join _ _ | call _ | start _ _ | child _ _ => exact .inl (suffix_of_cons h (by simp))
  | client _ =>
    rw [spawnClient_eq] at h
    exact .inl (suffix_of_cons h (by simp))
  | @upstream w qid x u result hx hok hu =>
    have htrace : .finished id t r :: l <:+ completion cfg u x result ++ .wake x.task u.budget ::
      w.trace := h
    have hwoken : .finished id t r :: l <:+ .wake x.task u.budget :: w.trace := by
      unfold completion at htrace
      split at htrace
      · exact suffix_of_cons htrace (by simp)
      · exact suffix_of_cons htrace (by simp)
      · exact suffix_of_cons htrace (by simp)
      · exact htrace
    exact .inl (suffix_of_cons hwoken (by simp))
  | send _ _ hsend =>
    obtain ⟨-, u, y, draws, -, -, -, rfl⟩ := sendQuery_sent hsend
    exact .inl (suffix_of_cons h (by simp))
  | spent _ _ hsend =>
    obtain ⟨rfl, -⟩ := sendQuery_over hsend
    exact .inl h
  | answer _ =>
    rcases List.suffix_cons_iff.mp h with heq | h
    · obtain ⟨hobs, rfl⟩ := List.cons.inj heq
      obtain ⟨rfl, rfl, rfl⟩ := Obs.finished.inj hobs
      exact .inr ⟨rfl, _, rfl, rfl⟩
    · exact .inl h
  | wakeParent _ _ =>
    rcases List.suffix_cons_iff.mp (suffix_of_cons h (by simp)) with heq | h
    · obtain ⟨hobs, rfl⟩ := List.cons.inj heq
      obtain ⟨rfl, rfl, rfl⟩ := Obs.finished.inj hobs
      exact .inr ⟨rfl, _, rfl, rfl⟩
    · exact .inl h
  | _ => exact .inl h

/-- `P` holds of every task, also of those that have ended. -/
structure AllTasks (P : Task → Prop) (s : Phase × World) : Prop where
  live : ∀ i t, s.2.tasks i = some t → P t
  leaving : ∀ orphan id t r, s.1 = .releasing orphan id t r → P t
  finished : ∀ id t r, .finished id t r ∈ s.2.trace → P t

theorem allTasks_micro {P : Task → Prop} (hab : Micro cfg env a b)
    (hlive : ∀ i t, b.2.tasks i = some t → P t) (h : AllTasks P a) : AllTasks P b := by
  refine ⟨hlive, ?_, ?_⟩
  · intro orphan id t r hphase
    cases hab with
    | drop ht =>
      obtain ⟨-, rfl, rfl, rfl⟩ := Phase.releasing.inj hphase
      exact h.live _ _ ht
    | dropChild _ =>
      obtain ⟨-, rfl, rfl, rfl⟩ := Phase.releasing.inj hphase
      exact h.leaving _ _ _ _ rfl
    | _ => simp at hphase
  · intro id t r hmem
    obtain ⟨newer, older, hsplit⟩ := List.append_of_mem hmem
    rcases finished_micro hab (hsplit ▸ List.suffix_append newer _) with hold | ⟨-, result, hphase, -⟩
    · exact h.finished id t r (hold.subset List.mem_cons_self)
    · exact h.leaving none id t result hphase

/-- `R`, a fact about the trace, the task and its response, holds of the task that finishes. -/
def Final (R : List Obs → Task → Message → Prop) : Phase × World → Prop
  | (.finishing id (.ok r), w) => ∀ t, w.tasks id = some t → R w.trace t r.response
  | (.releasing _ _ t (.ok r), w) => R w.trace t r.response
  | _ => True

/-- `R` holds of every response a task finished with. -/
structure ResultsOk (R : List Obs → Task → Message → Prop) (s : Phase × World) : Prop where
  final : Final R s
  finished : ∀ id t r l, .finished id t (.ok r) :: l <:+ s.2.trace → R l t r.response

theorem complete_ok {t : Task} {result : Outcome} {r : ResolveResult}
    (h : .ok r = complete w t result) : ∃ r', result = .ok r' ∧ r'.response = r.response := by
  cases result with
  | error e => simp [complete, Except.map] at h
  | ok r' =>
    simp only [complete, Except.map, Except.ok.injEq] at h
    exact ⟨r', rfl, by rw [h]⟩

/-- **The rule for results.** -/
theorem results_micro {R : List Obs → Task → Message → Prop}
    (hdone : ∀ id wake t₀ sh t r, a.1 = .running id wake → a.2.tasks id = some t₀ →
      StepOk cfg wake a.2.shared t₀ (sh, t, .finish (.ok r)) → R a.2.trace t r.response)
    (hab : Micro cfg env a b) (ha : ResultsOk R a) : ResultsOk R b where
  finished id t r l h := by
    rcases finished_micro hab h with h | ⟨rfl, result, hphase, hr⟩
    · exact ha.finished id t r l h
    · obtain ⟨r', rfl, hresponse⟩ := complete_ok hr
      obtain ⟨p, w⟩ := a
      obtain rfl : p = _ := hphase
      exact hresponse ▸ ha.final
  final := by
    cases hab with
    | spent _ _ hsend =>
      obtain ⟨rfl, rfl⟩ := sendQuery_over hsend
      trivial
    | @done w id wake t₀ t sh result ht hstep =>
      cases result with
      | error e => trivial
      | ok r =>
        intro u hu
        have hput : Function.update w.tasks id (some t) id = some u := hu
        rw [Function.update_self] at hput
        obtain rfl := Option.some.inj hput
        exact hdone id wake t₀ sh t r rfl ht hstep
    | @drop w id t result ht =>
      cases result with
      | error e => trivial
      | ok r =>
        have hfinal := ha.final t ht
        exact hfinal
    | @dropChild w c id tc t result hc =>
      cases result with
      | error e => trivial
      | ok r =>
        have hfinal := ha.final
        exact hfinal
    | _ => trivial

/-! ### From an empty cache -/

theorem shared_micro (hab : Micro cfg env a b) (ha : SharedOk a.2.shared) :
    SharedOk b.2.shared :=
  shared_keeps hab (fun _ _ h hsh => hsh.of_held h.inserts fun _ _ => h.held)
    (fun _ _ hsh => hsh.of_held rfl fun _ _ he => he) (fun _ _ _ hstep => turn_shared hstep.ok) ha

theorem sharedOk_start (cfg : Config) (sizes : Sizes) (cacheConfig : CacheConfig) :
    SharedOk (start cfg sizes cacheConfig).shared where
  recorded k e he := absurd he (not_held_create sizes cacheConfig k e)
  inserts _ hi := absurd hi List.not_mem_nil

theorem sources_start (cfg : Config) (sizes : Sizes) (cacheConfig : CacheConfig) :
    SourcesOk (.idle, start cfg sizes cacheConfig) :=
  ⟨by simp [start], by simp [start], by simp, fun _ hi => absurd hi List.not_mem_nil⟩

/-- **The rule for runs**, with what else (`Q`) the steps need. -/
theorem results_run {R : List Obs → Task → Message → Prop} {Q : Phase × World → Prop} {sizes : Sizes}
    {cacheConfig : CacheConfig} {es : List Event} (hstart : Q (.idle, start cfg sizes cacheConfig))
    (hmicro : ∀ a b, Wired a.1 a.2 → Micro cfg env a b → SharedOk a.2.shared → Q a → Q b)
    (hdone : ∀ (a : Phase × World) id wake t₀ sh t r, SharedOk a.2.shared → Q a → a.1 = .running id wake →
      a.2.tasks id = some t₀ → StepOk cfg wake a.2.shared t₀ (sh, t, .finish (.ok r)) →
        R a.2.trace t r.response)
    (h : Run (Step cfg env) (start cfg sizes cacheConfig) es w) : ResultsOk R (.idle, w) := by
  have hkept : SharedOk w.shared ∧ Q (.idle, w) ∧ ResultsOk R (.idle, w) := by
    refine run_keeps (P := fun s => SharedOk s.2.shared ∧ Q s ∧ ResultsOk R s) ?_ h (wired_init _)
      ⟨sharedOk_start .., hstart, trivial, ?_⟩
    · rintro a b hw hab ⟨hsh, hq, hr⟩
      refine ⟨shared_micro hab hsh, hmicro a b hw hab hsh hq, results_micro ?_ hab hr⟩
      exact fun id wake t₀ sh t r => hdone a id wake t₀ sh t r hsh hq
    · intro id t r l hl
      exact absurd hl (by simp [start])
  exact hkept.2.2

/-! ### NXDOMAIN -/

/-- A response accepted for a query about `n` said that `n` does not exist. -/
def Denied (trace : List Obs) (n : Name) : Prop :=
  ∃ id q m, .accepted id q m ∈ trace ∧ m.header.rcode = RCode.NXDomain ∧ (q.qname == n) = true

/-- NXDOMAIN is what a server said about the last name, unless type 0 was asked for: the cache has
NXDOMAIN under that type. -/
def Nxdomain (trace : List Obs) (t : Task) (m : Message) : Prop :=
  m.header.rcode = RCode.NXDomain → Denied trace t.qname ∨ Wanted trace kNxdomainType

theorem denied_of_received {trace : List Obs} {s : Source} {n : Name} (h : Received trace s)
    (hrcode : s.response.header.rcode = RCode.NXDomain) (hname : (s.query.qname == n) = true) :
    Denied trace n := by
  obtain ⟨id, -, -, -, q, earlier, hacc, -, hq⟩ := h.accepted
  refine ⟨id, q, s.response, hacc.subset List.mem_cons_self, hrcode, ?_⟩
  rw [Name.beq_iff] at hname ⊢
  exact (Question.beq_iff.mp hq).1.trans hname

theorem denied_of_insert {trace : List Obs} {i : Insert} {n : Name} (hi : InsertOk i)
    (h : Received trace i.source) (hkey : (i.key == ⟨n, kNxdomainType, kClassIN⟩) = true) :
    Denied trace n ∨ Wanted trace kNxdomainType := by
  obtain ⟨hname, htype, -⟩ := CacheKey.beq_iff.mp hkey
  rcases hi.nxdomain htype with hq | ⟨hrcode, hq⟩
  · exact .inr (hq ▸ h.wanted)
  · refine .inl (denied_of_received h hrcode ?_)
    rw [Name.beq_iff] at hq ⊢
    exact hq.symm.trans hname

/-- The step that finishes a task with NXDOMAIN. -/
theorem nxdomain_done (hsh : SharedOk a.2.shared) (hs : SourcesOk a) {id : ℕ} {wake : Wake}
    {t₀ t : Task} {sh : Shared} {r : ResolveResult} (hphase : a.1 = .running id wake)
    (hstep : StepOk cfg wake a.2.shared t₀ (sh, t, .finish (.ok r))) :
    Nxdomain a.2.trace t r.response := by
  obtain ⟨answers, -, hok⟩ := turn_result hstep.ok
  intro hnx
  rcases hok.nxdomain hnx with ⟨e, hit⟩ | ⟨s, hsrc, hrcode, hname⟩
  · obtain ⟨i, hi, hmade⟩ := hit_recorded hsh hit
    refine denied_of_insert hmade.ok ?_ hmade.key
    rcases hi with hi | hsrc
    · exact (hs.inserts i hi).2
    · exact hs.running id wake _ hphase hsrc
  · exact .inl (denied_of_received (hs.running id wake s hphase hsrc) hrcode hname)

theorem nxdomain_run {sizes : Sizes} {cacheConfig : CacheConfig} {es : List Event}
    (h : Run (Step cfg env) (start cfg sizes cacheConfig) es w) : ResultsOk Nxdomain (.idle, w) :=
  results_run (sources_start ..) (fun _ _ hw hab _ => sources_micro hw hab)
    (fun _ _ _ _ _ _ _ hsh hs hphase _ hstep => nxdomain_done hsh hs hphase hstep) h

/-! ### Chains -/

/-- The answers are the CNAMEs that were followed, one after the other, and then what the last name
has. -/
def Chained (_ : List Obs) (t : Task) (m : Message) : Prop :=
  ChainOk t ∧ ∃ rest, m.answers = t.chain ++ rest ∧
    ∀ r ∈ rest, r.type = t.question.qtype ∨ isNs r.rdata = true

def AllChained (s : Phase × World) : Prop := ∀ i t, s.2.tasks i = some t → ChainOk t

theorem chainOk_of_findings {t t' : Task} (ht : ChainOk t) (h : findings t' = findings t) :
    ChainOk t' := by
  simp only [findings, Prod.mk.injEq] at h
  obtain ⟨hquestion, hqname, hchain, -⟩ := h
  refine ⟨?_, ?_⟩
  · rw [hquestion, hqname, hchain]
    exact ht.linked
  · rw [hquestion, hchain]
    exact ht.qtype

theorem chainOk_of_new {t : Task} {q : Question} {ancestry : List Question} {budget : ℕ}
    {client : Bool} (h : findings t = (q, q.qname, [], ancestry, budget, 0, 0, client, 0)) :
    ChainOk t := by
  simp only [findings, Prod.mk.injEq] at h
  obtain ⟨hquestion, hqname, hchain, -⟩ := h
  refine ⟨?_, fun hne => absurd hchain hne⟩
  rw [hquestion, hqname, hchain]
  exact Name.beq_refl _

theorem chains_micro (hab : Micro cfg env a b) (hsh : SharedOk a.2.shared) (ha : AllChained a) :
    AllChained b :=
  tasks_micro hab (fun _ _ _ => chainOk_of_findings) (fun _ h _ _ => chainOk_of_new h)
    (fun _ _ _ _ _ _ _ _ _ _ => chainOk_of_new)
    (fun _ _ _ _ hstep => turn_chain hstep.ok hsh) ha

/-- The step that finishes a task with answers. -/
theorem chained_done (hsh : SharedOk a.2.shared) (hc : AllChained a) {id : ℕ} {wake : Wake}
    {t₀ t : Task} {sh : Shared} {r : ResolveResult} (ht : a.2.tasks id = some t₀)
    (hstep : StepOk cfg wake a.2.shared t₀ (sh, t, .finish (.ok r))) :
    Chained a.2.trace t r.response := by
  refine ⟨turn_chain hstep.ok hsh (hc id t₀ ht), ?_⟩
  obtain ⟨answers, hanswers, hok⟩ := turn_result hstep.ok
  refine ⟨answers, hanswers, fun x hx => ?_⟩
  rcases hok.answers x hx with howned | ⟨e, hit, huse, hmem⟩
  · exact .inl howned.type
  · obtain ⟨i, -, hmade⟩ := hit_recorded hsh hit
    exact .inl (hmade.owned huse hmem).type

theorem chained_run {sizes : Sizes} {cacheConfig : CacheConfig} {es : List Event}
    (h : Run (Step cfg env) (start cfg sizes cacheConfig) es w) : ResultsOk Chained (.idle, w) :=
  results_run (fun i t ht => absurd ht (by simp [start])) (fun _ _ _ hab hsh hc => chains_micro hab hsh hc)
    (fun _ _ _ _ _ _ _ hsh hc _ ht hstep => chained_done hsh hc ht hstep) h

end DNSentinel.Resolver.Results
