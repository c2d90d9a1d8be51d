import DNSentinel.Resolver.Wiring
import DNSentinel.Lib.Runs

/-! # Events as sequences of changes

Every event of the resolver is a sequence of the changes of `Micro` that begins and ends between
events (`step_micros`). So what every change keeps holds along every run (`run_keeps`), and `Wired`
holds in every state a run reaches. -/

namespace DNSentinel.Resolver.Events

open DNSentinel.Types Lib.Pairs Lib.Runs Store.Model Store.Contents Selection Data Resolver.Core
open Machine Turns Effects Visits Phases Wiring

abbrev Micros (cfg : Config) (env : Random) : Phase × World → Phase × World → Prop :=
  Relation.ReflTransGen (Micro cfg env)

variable {cfg : Config} {env : Random} {w w' : World} {id : ℕ} {t t₀ : Task} {wake : Wake}

theorem wired_micros {a b : Phase × World} (hab : Micros cfg env a b) (h : Wired a.1 a.2) :
    Wired b.1 b.2 := by
  induction hab with
  | refl => exact h
  | tail _ hbc ih => exact wired_micro hbc ih

/-! ### Last calls -/

theorem putTask_putTask (w : World) (id : ℕ) (t t' : Task) :
    (w.putTask id t).putTask id t' = w.putTask id t' := by
  unfold World.putTask
  simp only [Function.update_idem]

/-- A last call does not read the stored task. -/
theorem perform_putTask (w : World) (turn : Turn) :
    perform cfg env (w.putTask id t) id turn = perform cfg env w id turn := by
  obtain ⟨sh, t', next⟩ := turn
  cases next with
  | finish result => exact congrArg (·, some result) (putTask_putTask { w with shared := sh } id t t')
  | sendQuery address transport =>
    unfold perform sendQuery
    dsimp only [World.putTask, World.log]
    split_ifs <;> simp only [Function.update_idem]
  | spawn q ancestry =>
    unfold perform spawnChild spawn
    dsimp only [World.putTask, World.log, World.addTimer]
    by_cases hid : id = w.nextTaskId
    · subst hid
      simp only [Function.update_idem]
    · simp only [Function.update_comm hid, Function.update_idem]

theorem perform_micro (env : Random) {turn : Turn} (ht : w.tasks id = some t₀)
    (hstep : StepOk cfg wake w.shared t₀ turn) :
    match perform cfg env w id turn with
    | (w', none) => Micro cfg env (.running id wake, w) (.idle, w')
    | (w', some result) => Micro cfg env (.running id wake, w) (.finishing id result, w') := by
  obtain ⟨sh, t, next⟩ := turn
  cases next with
  | finish result => exact .done ht hstep
  | spawn q ancestry => exact .child ht hstep
  | sendQuery address transport =>
    unfold perform
    dsimp only
    generalize hw : sendQuery cfg env { w with shared := sh } id t address transport = out
    obtain ⟨w', result⟩ := out
    cases result with
    | none => exact .send ht hstep hw
    | some result => exact .spent ht hstep hw

/-! ### Finishing a task -/

theorem cancel_micros {result : Outcome} : ∀ (fuel : ℕ) (w : World) (c : ℕ),
    Wired (.releasing (some c) id t result) w → w.nextTaskId ≤ c + fuel →
    Micros cfg env (.releasing (some c) id t result, w) (.releasing none id t result, cancel fuel w c)
  | 0, w, c, h, hfuel => by
    obtain ⟨-, tc, htc, -⟩ := h.phase.2.2.2.1 c rfl
    exact absurd (h.task_lt c tc htc) (by omega)
  | fuel + 1, w, c, h, hfuel => by
    obtain ⟨-, tc, htc, -⟩ := h.phase.2.2.2.1 c rfl
    have hdrop : Micro cfg env (.releasing (some c) id t result, w) _ := .dropChild htc
    have hnext := wired_micro hdrop h
    unfold cancel
    simp only [htc]
    cases hchild : tc.child with
    | none =>
      rw [hchild] at hdrop
      exact .single hdrop
    | some d =>
      rw [hchild] at hdrop hnext
      refine .head hdrop (cancel_micros fuel _ d hnext ?_)
      have hlt := (h.tasks c tc htc).child_lt d hchild
      show w.nextTaskId ≤ d + fuel
      omega

theorem release_micros (cfg : Config) (env : Random) {result : Outcome} (h : Wired (.finishing id result) w)
    (ht : w.tasks id = some t) :
    Micros cfg env (.finishing id result, w) (.releasing none id t result, release w id) := by
  have hlt := h.task_lt id t ht
  have hdrop : Micro cfg env (.finishing id result, w) _ := .drop ht
  have hnext := wired_micro hdrop h
  obtain ⟨n, hn⟩ : ∃ n, w.nextTaskId = n + 1 := ⟨w.nextTaskId - 1, by omega⟩
  unfold release
  rw [hn]
  unfold cancel
  simp only [ht]
  cases hchild : t.child with
  | none =>
    rw [hchild] at hdrop
    exact .single hdrop
  | some c =>
    rw [hchild] at hdrop hnext
    refine .head hdrop (cancel_micros n _ c hnext ?_)
    have hlt := (h.tasks id t ht).child_lt c hchild
    show w.nextTaskId ≤ c + n
    omega

/-- The parent of a finished sub-query goes on. -/
theorem wakeParent_micro (cfg : Config) (env : Random) {parent : ℕ} {tp : Task}
    (htp : w.tasks parent = some tp) (hin : InZone tp) (r : Outcome) :
    match wakeParent cfg env w parent r with
    | (w', none) => Micro cfg env (.running parent .child,
        (w.log (.wake parent tp.budget)).putTask parent { tp with child := none }) (.idle, w')
    | (w', some next) => Micro cfg env (.running parent .child,
        (w.log (.wake parent tp.budget)).putTask parent { tp with child := none })
        (.finishing parent next, w') := by
  have hstep : StepOk cfg .child w.shared { tp with child := none }
      (onChildDone cfg env w.shared { tp with child := none } r) :=
    ⟨onChildDone_ok hin, onChildDone_sought cfg env w.shared { tp with child := none } r⟩
  have hmicro := perform_micro env
    (w := (w.log (.wake parent tp.budget)).putTask parent { tp with child := none })
    (Function.update_self ..) hstep
  rw [perform_putTask] at hmicro
  unfold wakeParent
  simp only [htp]
  exact hmicro

/-- A finished task, its sub-queries, and the parents that finish in turn. -/
theorem finish_micros : ∀ (fuel : ℕ) (w : World) (id : ℕ) (result : Outcome),
    Wired (.finishing id result) w → id < fuel →
    Micros cfg env (.finishing id result, w) (.idle, finish cfg env fuel w id result)
  | 0, _, _, _, _, hfuel => absurd hfuel (Nat.not_lt_zero _)
  | fuel + 1, w, id, result, h, hfuel => by
    obtain ⟨t, ht⟩ := h.phase
    have hrelease := release_micros cfg env h ht
    have hgone := wired_micros hrelease h
    obtain ⟨-, hclient, hjoiners, -, hparents⟩ := hgone.phase
    unfold finish
    simp only [ht]
    cases hdone : t.done with
    | callback cb => exact .tail hrelease (.answer hdone)
    | onChildDone parent =>
      have hparent : parentOf t = some parent := by simp [parentOf, hdone]
      obtain ⟨hlt, tp, htp, hchild⟩ := hparents parent hparent
      have hnone : t.joiners = [] := hjoiners (by rw [hclient, hparent]; rfl)
      have hwake : Micro cfg env (.releasing none id t result, release w id) _ :=
        .wakeParent hdone htp
      have hrunning := wired_micro hwake hgone
      have hin : InZone tp := (hgone.tasks parent tp htp).placed (.inr (by simp [hchild]))
      have hmicro := wakeParent_micro cfg env
        (w := (release w id).log (.finished id t (complete (release w id) t result))) htp hin
        (complete (release w id) t result)
      simp only [hnone, List.map_nil, List.append_nil]
      generalize wakeParent cfg env ((release w id).log (.finished id t
        (complete (release w id) t result))) parent (complete (release w id) t result) = out
        at hmicro ⊢
      obtain ⟨w', next⟩ := out
      refine .trans (.tail hrelease hwake) ?_
      cases next with
      | none => exact .single hmicro
      | some r => exact .head hmicro (finish_micros fuel w' parent r (wired_micro hmicro hrunning)
          (by omega))

/-- The rest of an event, once a task is woken. -/
theorem runTurn_micros {turn : Turn} (h : Wired (.running id wake) w) (ht : w.tasks id = some t₀)
    (hstep : StepOk cfg wake w.shared t₀ turn) :
    Micros cfg env (.running id wake, w) (.idle, runTurn cfg env w id turn) := by
  have hmicro := perform_micro env ht hstep
  unfold runTurn
  generalize perform cfg env w id turn = out at hmicro ⊢
  obtain ⟨w', result⟩ := out
  cases result with
  | none => exact .single hmicro
  | some result =>
    have hnext := wired_micro hmicro h
    obtain ⟨t, ht⟩ := hnext.phase
    exact .head hmicro (finish_micros _ _ id result hnext (hnext.task_lt id t ht))

theorem runTurn_putTask (w : World) (turn : Turn) :
    runTurn cfg env (w.putTask id t) id turn = runTurn cfg env w id turn := by
  unfold runTurn
  rw [perform_putTask]

/-! ### Events -/

theorem resolve_micro (h : Wired .idle w) (q : Question) :
    Micro cfg env (.idle, w) (.idle, resolveClient cfg w q) := by
  unfold resolveClient
  cases hid : w.inFlight (questionKey q) with
  | none =>
    simp only [World.log, hid]
    exact .client hid
  | some id =>
    obtain ⟨t, ht, -⟩ := h.client_task hid
    simp only [World.log, hid, ht]
    exact .join hid ht

theorem timer_micros {fuel tid due : ℕ} {action : TimerAction} (h : Wired .idle w)
    (htimer : w.timers tid = some ⟨due, action⟩)
    (hw : onTimer cfg env fuel { w with timers := without w.timers (some tid) } action = some w') :
    Micros cfg env (.idle, w) (.idle, w') := by
  cases action with
  | start id =>
    obtain ⟨t, ht, -⟩ := h.start_task htimer
    have hwake : Micro cfg env (.idle, w) _ := .start htimer ht
    simp only [onTimer, ht, Option.map_eq_some_iff] at hw
    obtain ⟨turn, hstep, rfl⟩ := hw
    refine .head hwake ?_
    rw [← runTurn_putTask (t := { t with startTimer := none })]
    exact runTurn_micros (wired_micro hwake h) (Function.update_self ..)
      ⟨step_ok hstep, step_restarted hstep⟩
  | deadline id =>
    obtain ⟨t, ht, -⟩ := h.deadline_task htimer
    have hend : Micro cfg env (.idle, w) _ := .deadline htimer ht
    simp only [onTimer, ht, Option.some.injEq] at hw
    subst hw
    exact .head hend (finish_micros _ _ id _ (wired_micro hend h) (h.task_lt id t ht))

theorem upstream_step {qid : ℕ} {result : Except UpstreamError Message} (h : Wired .idle w)
    (hs : Step cfg env w (.upstream qid result) w') :
    ∃ x t, w.pending qid = some x ∧ allowed cfg w.shared.now x result = true ∧
      w.tasks x.task = some t ∧
      Micros cfg env (.running x.task (.upstream result (sourceOf t result)),
        { w with
          pending := without w.pending (some qid)
          trace := completion cfg t x result ++ Obs.wake x.task t.budget :: w.trace }.putTask x.task
          { t with upstream := none }) (.idle, w') := by
  obtain ⟨fuel, hs⟩ := hs
  simp only [apply] at hs
  split at hs
  · next x _ hx =>
    split_ifs at hs with hok
    obtain ⟨t, ht, hup⟩ := h.pending_task hx
    have htask := h.tasks x.task t ht
    have hsome : t.upstream.isSome = true := by simp [hup]
    have hwake : Micro cfg env (.idle, w) _ := .upstream hx hok ht
    simp only [onUpstream, ht, Option.map_eq_some_iff] at hs
    obtain ⟨turn, hstep, rfl⟩ := hs
    refine ⟨x, t, hx, hok, ht, ?_⟩
    rw [← runTurn_putTask (t := { t with upstream := none })]
    refine runTurn_micros (wired_micro hwake h) (Function.update_self ..)
      ⟨?_, onResponse_replied hstep⟩
    have hin : InZone { t with upstream := none } := htask.placed (.inl hsome)
    cases result <;> exact onResponse_ok hin (htask.asked hsome) hstep
  · simp at hs

/-- **Every event is a sequence of changes.** -/
theorem step_micros {e : Event} (h : Wired .idle w) (hs : Step cfg env w e w') :
    Micros cfg env (.idle, w) (.idle, w') := by
  obtain ⟨fuel, hs⟩ := hs
  cases e with
  | resolve q =>
    obtain rfl := Option.some.inj hs
    exact .single (resolve_micro h q)
  | timer tid =>
    simp only [apply] at hs
    split at hs
    · next timer _ htimer =>
      split_ifs at hs
      exact timer_micros h htimer hs
    · simp at hs
  | upstream qid result =>
    obtain ⟨x, t, hx, hok, ht, hrest⟩ := upstream_step h ⟨fuel, hs⟩
    exact .head (.upstream hx hok ht) hrest
  | call =>
    simp only [apply] at hs
    split at hs
    · simp at hs
    · next cb result rest hcalls =>
      obtain rfl := Option.some.inj hs
      exact .single (.call hcalls)
  | wait ns =>
    simp only [apply] at hs
    split at hs
    · obtain rfl := Option.some.inj hs
      exact .single (.shared (.wait _ ns))
    · simp at hs
  | evict key =>
    obtain rfl := Option.some.inj hs
    exact .single (.shared (.evict _ key))
  | flush =>
    obtain rfl := Option.some.inj hs
    exact .single (.shared (.flush _))

theorem wired_run {es : List Event} (h : Run (Step cfg env) w es w') (hw : Wired .idle w) :
    Wired .idle w' :=
  h.invariant (fun _ _ _ hs hse => wired_micros (step_micros hs hse) hs) hw

theorem micros_keep {P : Phase × World → Prop}
    (hmicro : ∀ a b, Wired a.1 a.2 → Micro cfg env a b → P a → P b) {a b : Phase × World}
    (hab : Micros cfg env a b) (ha : Wired a.1 a.2) (hP : P a) : P b := by
  induction hab with
  | refl => exact hP
  | tail hab hbc ih => exact hmicro _ _ (wired_micros hab ha) hbc ih

/-- **The rule for runs**: what every change keeps, every run keeps. -/
theorem run_keeps {P : Phase × World → Prop}
    (hmicro : ∀ a b, Wired a.1 a.2 → Micro cfg env a b → P a → P b) {es : List Event}
    (h : Run (Step cfg env) w es w') (hw : Wired .idle w) (hP : P (.idle, w)) : P (.idle, w') := by
  refine (h.invariant (P := fun s => Wired .idle s ∧ P (.idle, s)) ?_ ⟨hw, hP⟩).2
  rintro s e s' ⟨hs, hPs⟩ hse
  have hseq := step_micros hs hse
  exact ⟨wired_micros hseq hs, micros_keep hmicro hseq hs hPs⟩

theorem trace_micro {a b : Phase × World} (hab : Micro cfg env a b) : a.2.trace <:+ b.2.trace := by
  cases hab with
  | client _ =>
    rw [spawnClient_eq]
    exact List.suffix_cons ..
  | shared _ | deadline _ _ | done _ _ | drop _ | dropChild _ => exact List.suffix_rfl
  | upstream _ _ _ => exact .trans (List.suffix_cons ..) (List.suffix_append ..)
  | send _ _ hsend =>
    obtain ⟨-, u, x, draws, -, -, -, rfl⟩ := sendQuery_sent hsend
    exact List.suffix_cons ..
  | spent _ _ hsend =>
    obtain ⟨rfl, -⟩ := sendQuery_over hsend
    exact List.suffix_rfl
  | wakeParent _ _ => exact .trans (List.suffix_cons ..) (List.suffix_cons ..)
  | _ => exact List.suffix_cons ..

theorem nextTaskId_micro {a b : Phase × World} (hab : Micro cfg env a b) :
    a.2.nextTaskId ≤ b.2.nextTaskId := by
  cases hab with
  | client _ =>
    rw [spawnClient_eq]
    exact Nat.le_succ _
  | child _ _ => exact Nat.le_succ _
  | send _ _ hsend =>
    obtain ⟨-, u, x, draws, -, -, -, rfl⟩ := sendQuery_sent hsend
    exact le_rfl
  | spent _ _ hsend =>
    obtain ⟨rfl, -⟩ := sendQuery_over hsend
    exact le_rfl
  | _ => exact le_rfl

theorem trace_run {es : List Event} (h : Run (Step cfg env) w es w') (hw : Wired .idle w) :
    w.trace <:+ w'.trace :=
  run_keeps (P := fun s => w.trace <:+ s.2.trace)
    (fun _ _ _ hab ha => ha.trans (trace_micro hab)) h hw List.suffix_rfl

theorem resolve_mem {sh : Shared} {q : Question} {es : List Event}
    (h : Run (Step cfg env) { shared := sh } (.resolve q :: es) w) : .resolve 0 q ∈ w.trace := by
  cases h with
  | cons hs rest =>
    obtain ⟨fuel, hs⟩ := hs
    obtain rfl := Option.some.inj hs
    have hmicro : Micro cfg env (.idle, { shared := sh }) _ := resolve_micro (wired_init sh) q
    have hwired : Wired .idle (resolveClient cfg { shared := sh } q) :=
      wired_micro hmicro (wired_init sh)
    refine (trace_run rest hwired).subset ?_
    simp [resolveClient, spawnClient_eq, World.log]

/-! ### Facts about what is shared -/

/-- **The rule for the shared state**: what steps, the passage of time and other users of the cache
keep, and what does not depend on the random numbers, is kept by every change. -/
theorem shared_keeps {P : Shared → Prop} {a b : Phase × World} (hab : Micro cfg env a b)
    (houtside : ∀ sh sh', Outside sh sh' → P sh → P sh')
    (hdraws : ∀ sh draws, P sh → P { sh with draws })
    (hturn : ∀ wake t turn, StepOk cfg wake a.2.shared t turn → P a.2.shared → P turn.1)
    (ha : P a.2.shared) : P b.2.shared := by
  cases hab with
  | client _ =>
    rw [spawnClient_eq]
    exact ha
  | shared h => exact houtside _ _ h ha
  | send _ hstep hsend =>
    obtain ⟨-, u, y, draws, -, -, -, rfl⟩ := sendQuery_sent hsend
    exact hdraws _ draws (hturn _ _ _ hstep ha)
  | spent _ hstep hsend =>
    obtain ⟨rfl, -⟩ := sendQuery_over hsend
    exact hturn _ _ _ hstep ha
  | child _ hstep | done _ hstep => exact hturn _ _ _ hstep ha
  | _ => exact ha

/-! ### Facts about every task -/

/-- What a task has found out, apart from the query it has sent and who waits for what. -/
def findings (t : Task) :=
  (t.question, t.qname, t.chain, t.ancestry, t.budget, t.gluelessLookups, t.visits, t.client,
    t.cnameHops)

/-- **The rule for tasks**: a fact about tasks that holds of new tasks, that steps keep, and that
does not depend on who waits for what, is kept by every change. -/
theorem tasks_micro {P : ℕ → Task → Prop} {a b : Phase × World} (hab : Micro cfg env a b)
    (hfindings : ∀ i t t', P i t → findings t' = findings t → P i t')
    (hclient : ∀ t, findings t = (t.question, t.question.qname, [], [], a.2.nextTaskId, 0, 0, true, 0) →
      .resolve a.2.nextCallback t.question ∈ b.2.trace → a.2.nextTaskId < b.2.nextTaskId →
      P a.2.nextTaskId t)
    (hchild : ∀ wake t₀ sh t q ancestry, StepOk cfg wake a.2.shared t₀ (sh, t, .spawn q ancestry) →
      ∀ i, P i t₀ → ∀ u, findings u = (q, q.qname, [], ancestry, t.budget, 0, 0, false, 0) →
      P a.2.nextTaskId u)
    (hturn : ∀ i wake t turn, StepOk cfg wake a.2.shared t turn → P i t → P i turn.2.1)
    (h : ∀ i t, a.2.tasks i = some t → P i t) : ∀ i t, b.2.tasks i = some t → P i t := by
  have hput : ∀ {id : ℕ} {t : Task}, P id t → ∀ i u,
      Function.update a.2.tasks id (some t) i = some u → P i u := by
    intro id t ht i u hi
    rcases update_some hi with ⟨rfl, rfl⟩ | ⟨-, hi⟩
    · exact ht
    · exact h i u hi
  cases hab with
  | join _ ht | start _ ht | deadline _ ht | upstream _ _ ht =>
    exact hput (hfindings _ _ _ (h _ _ ht) rfl)
  | client _ =>
    rw [spawnClient_eq] at hclient ⊢
    exact hput (hclient _ rfl List.mem_cons_self (Nat.lt_succ_self _))
  | call _ => exact h
  | shared _ => exact h
  | send ht hstep hsend =>
    obtain ⟨-, u, x, draws, hu, -, -, rfl⟩ := sendQuery_sent hsend
    refine hput (hfindings _ _ _ (hturn _ _ _ _ hstep (h _ _ ht)) ?_)
    rw [hu]
    rfl
  | spent ht hstep hsend =>
    obtain ⟨rfl, -⟩ := sendQuery_over hsend
    exact hput (hturn _ _ _ _ hstep (h _ _ ht))
  | child ht hstep =>
    rw [spawnChild_eq]
    intro i u hi
    rcases update_some hi with ⟨rfl, rfl⟩ | ⟨-, hi⟩
    · exact hfindings _ _ _ (hturn _ _ _ _ hstep (h _ _ ht)) rfl
    · exact hput (hchild _ _ _ _ _ _ hstep _ (h _ _ ht) _ rfl) i u hi
  | done ht hstep => exact hput (hturn _ _ _ _ hstep (h _ _ ht))
  | drop _ | dropChild _ => exact fun i u hi => h i u (update_none hi).2
  | answer _ => exact h
  | wakeParent _ hp => exact hput (hfindings _ _ _ (h _ _ hp) rfl)

/-! ### Runs that are computed -/

/-- A network with one server, which serves the root. -/
def sampleConfig : Config :=
  { use0x20 := false
    exploreOneIn := 0
    hints :=
      { ns := [{ name := {}, type := RRType.NS, rdata := .ns ⟨[[114]], [[114]]⟩ }]
        addresses := [{ name := ⟨[[114]], [[114]]⟩, rdata := .a 1 }] } }

def sampleStart : World :=
  start sampleConfig { string := 32, cacheKey := 56, cacheEntry := 64, rr := 128 } {}

/-- The name of one label of one letter. -/
def letter (c : UInt8) : Name := ⟨[[c]], [[c]]⟩

/-- A response to `q`. -/
def reply (q : Question) (m : Message) : Message :=
  { m with header := { m.header with qr := true }, questions := [q] }

/-- The events `es` in the sample network; all random numbers are 0. -/
def play (es : List Event) : Option World :=
  Run.applyAll (apply sampleConfig (fun _ => 0) 16) sampleStart es

theorem exists_run (es : List Event) {P : World → Bool} (h : (play es).any P = true) :
    ∃ w, Run (Step sampleConfig fun _ => 0) sampleStart es w ∧ P w = true :=
  Run.exists_of_applyAll (fun _ _ _ h => ⟨16, h⟩) h

/-- The callback called and its result, if that came last of all. -/
def lastCall (w : World) : Option (ℕ × Outcome) :=
  match w.trace with
  | .called cb result :: _ => some (cb, result)
  | _ => none

theorem trace_of_lastCall {w : World} {c : ℕ × Outcome} (h : lastCall w = some c) :
    ∃ trace, w.trace = .called c.1 c.2 :: trace := by
  unfold lastCall at h
  split at h
  · next cb result rest htrace =>
    obtain rfl := Option.some.inj h
    exact ⟨rest, htrace⟩
  · cases h

def failure : Outcome → Option ResolveError
  | .error e => some e
  | .ok _ => none

theorem eq_error_of_failure {result : Outcome} {e : ResolveError} (h : failure result = some e) :
    result = .error e := by
  cases result with
  | error e' => rw [Option.some.inj h]
  | ok r => cases h

end DNSentinel.Resolver.Events
