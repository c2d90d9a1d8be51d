import DNSentinel.Resolver.Machine
import DNSentinel.Resolver.Effects
import DNSentinel.Resolver.Visits

/-! # Inside an event

One event of the loop is a sequence of smaller changes: a task is woken, its step makes a last call,
a finished task is released with its sub-queries, its parent is woken in turn. `Micro` lists these
changes, and `Phase` says which task is in between: running, finishing, or being released. Between
events the phase is `idle`. -/

namespace DNSentinel.Resolver.Phases

open DNSentinel.Types Lib.Pairs Store.Model Store.Contents Selection Data Resolver.Core Machine
open Turns Effects Visits

/-- Why a task goes on. -/
inductive Wake where
  | start
  | upstream (result : Except UpstreamError Message) (source : Option Source)
  | child

/-- The response handled, if there is one. -/
def Wake.source : Wake → Option Source
  | .upstream _ source => source
  | _ => none

inductive Phase where
  | idle
  | running (id : ℕ) (wake : Wake)
  | finishing (id : ℕ) (result : Outcome)
  /-- task `id`, which was `t`, is gone; its sub-query `orphan` is to be cancelled -/
  | releasing (orphan : Option ℕ) (id : ℕ) (t : Task) (result : Outcome)

/-- What happens to the shared state between events: time passes, or others use the cache. -/
inductive Outside : Shared → Shared → Prop
  | wait (sh : Shared) (ns : ℕ) : Outside sh { sh with now := sh.now + ns }
  | evict (sh : Shared) (key : CacheKey) : Outside sh { sh with cache := sh.cache.evict key }
  | flush (sh : Shared) : Outside sh { sh with cache := sh.cache.flush }

theorem Outside.inserts {sh sh' : Shared} (h : Outside sh sh') : sh'.inserts = sh.inserts := by
  cases h <;> rfl

theorem Outside.held {sh sh' : Shared} (h : Outside sh sh') {k : CacheKey} {e : CacheEntry}
    (he : Held sh'.cache k e) : Held sh.cache k e := by
  cases h with
  | wait => exact he
  | evict => exact held_evict he
  | flush => exact absurd he not_held_flush

/-- What a step of a woken task makes of its zone visit. -/
def VisitOk (t : Task) (turn : Turn) : Wake → Prop
  | .start => Restarted (visit t) (visit turn.2.1) turn.2.2
  | .upstream result _ => Replied t turn.1.no0x20 result (visit turn.2.1) turn.2.2
  | .child => ∃ servers, t.servers ⊆ servers ∧
      Sought { visit t with servers } (visit turn.2.1) turn.2.2

/-- A step of a woken task. -/
structure StepOk (cfg : Config) (wake : Wake) (sh : Shared) (t : Task) (turn : Turn) : Prop where
  ok : TurnOk cfg wake.source (sh, t) turn
  visit : VisitOk t turn wake

/-- A finished sub-query does not change the zone. -/
theorem StepOk.visits {cfg : Config} {wake : Wake} {sh : Shared} {t : Task} {turn : Turn}
    (h : StepOk cfg wake sh t turn) (hwake : wake = .child) : turn.2.1.visits = t.visits := by
  subst hwake
  obtain ⟨servers, -, hsought⟩ := h.visit
  exact (sought_number hsought).1

section

variable (cfg : Config) (env : Random)

/-- The changes an event is made of. -/
inductive Micro : Phase × World → Phase × World → Prop
  /-- `resolve()` joins a resolution in flight -/
  | join {w : World} {q : Question} {id : ℕ} {t : Task}
      (hid : w.inFlight (questionKey q) = some id) (ht : w.tasks id = some t) :
      Micro (.idle, w)
        (.idle, ({ w with nextCallback := w.nextCallback + 1 }.log (.resolve w.nextCallback q)).putTask
          id { t with joiners := t.joiners ++ [(⟨q, w.shared.now, w.nextCallback⟩ : Waiter)] })
  /-- `resolve()` starts one -/
  | client {w : World} {q : Question} (hid : w.inFlight (questionKey q) = none) :
      Micro (.idle, w)
        (.idle, spawnClient cfg
          ({ w with nextCallback := w.nextCallback + 1 }.log (.resolve w.nextCallback q)) q
          w.nextCallback)
  | call {w : World} {cb : ℕ} {result : Outcome} {rest : List (ℕ × Outcome)}
      (h : w.calls = (cb, result) :: rest) :
      Micro (.idle, w) (.idle, { w with calls := rest }.log (.called cb result))
  /-- time passes, or others use the cache -/
  | shared {w : World} {sh : Shared} (h : Outside w.shared sh) :
      Micro (.idle, w) (.idle, { w with shared := sh })
  | start {w : World} {tid due id : ℕ} {t : Task} (htimer : w.timers tid = some ⟨due, .start id⟩)
      (ht : w.tasks id = some t) :
      Micro (.idle, w)
        (.running id .start, ({ w with timers := without w.timers (some tid) }.log
          (.wake id t.budget)).putTask id { t with startTimer := none })
  | deadline {w : World} {tid due id : ℕ} {t : Task}
      (htimer : w.timers tid = some ⟨due, .deadline id⟩) (ht : w.tasks id = some t) :
      Micro (.idle, w)
        (.finishing id (.error .timeout), { w with timers := without w.timers (some tid) }.putTask
          id { t with deadline := none })
  | upstream {w : World} {qid : ℕ} {p : Pending} {t : Task} {result : Except UpstreamError Message}
      (hp : w.pending qid = some p) (hok : allowed cfg w.shared.now p result = true)
      (ht : w.tasks p.task = some t) :
      Micro (.idle, w)
        (.running p.task (.upstream result (sourceOf t result)),
          { w with
            pending := without w.pending (some qid)
            trace := completion cfg t p result ++ Obs.wake p.task t.budget :: w.trace }.putTask p.task
            { t with upstream := none })
  | send {w w' : World} {id : ℕ} {wake : Wake} {t₀ t : Task} {sh : Shared} {address : Address}
      {transport : UpstreamTransport} (ht : w.tasks id = some t₀)
      (hstep : StepOk cfg wake w.shared t₀ (sh, t, .sendQuery address transport))
      (hw : sendQuery cfg env { w with shared := sh } id t address transport = (w', none)) :
      Micro (.running id wake, w) (.idle, w')
  | spent {w w' : World} {id : ℕ} {wake : Wake} {t₀ t : Task} {sh : Shared} {address : Address}
      {transport : UpstreamTransport} {result : Outcome} (ht : w.tasks id = some t₀)
      (hstep : StepOk cfg wake w.shared t₀ (sh, t, .sendQuery address transport))
      (hw : sendQuery cfg env { w with shared := sh } id t address transport = (w', some result)) :
      Micro (.running id wake, w) (.finishing id result, w')
  | child {w : World} {id : ℕ} {wake : Wake} {t₀ t : Task} {sh : Shared} {q : Question}
      {ancestry : List Question} (ht : w.tasks id = some t₀)
      (hstep : StepOk cfg wake w.shared t₀ (sh, t, .spawn q ancestry)) :
      Micro (.running id wake, w) (.idle, spawnChild { w with shared := sh } id t q ancestry)
  | done {w : World} {id : ℕ} {wake : Wake} {t₀ t : Task} {sh : Shared} {result : Outcome}
      (ht : w.tasks id = some t₀) (hstep : StepOk cfg wake w.shared t₀ (sh, t, .finish result)) :
      Micro (.running id wake, w) (.finishing id result, { w with shared := sh }.putTask id t)
  | drop {w : World} {id : ℕ} {t : Task} {result : Outcome} (ht : w.tasks id = some t) :
      Micro (.finishing id result, w) (.releasing t.child id t result, remove w id t)
  | dropChild {w : World} {c id : ℕ} {tc t : Task} {result : Outcome} (hc : w.tasks c = some tc) :
      Micro (.releasing (some c) id t result, w) (.releasing tc.child id t result, remove w c tc)
  | answer {w : World} {id cb : ℕ} {t : Task} {result : Outcome} (hdone : t.done = .callback cb) :
      Micro (.releasing none id t result, w)
        (.idle, { w.log (.finished id t (complete w t result)) with
          calls := w.calls ++ (cb, complete w t result) ::
            t.joiners.map (joined w.shared.now (complete w t result)) })
  | wakeParent {w : World} {id parent : ℕ} {t tp : Task} {result : Outcome}
      (hdone : t.done = .onChildDone parent) (hp : w.tasks parent = some tp) :
      Micro (.releasing none id t result, w)
        (.running parent .child, ((w.log (.finished id t (complete w t result))).log
          (.wake parent tp.budget)).putTask parent { tp with child := none })

end

/-! ### The changes, field by field -/

variable {cfg : Config} {env : Random} {w w' : World} {id : ℕ} {t : Task} {address : Address}
  {transport : UpstreamTransport}

/-- The query in flight is the one the task has sent. -/
def Asks (t : Task) (p : Pending) : Prop :=
  p.server = t.asked ∧ (p.question == t.target) = true ∧ (p.transport == .tcp) = t.overTcp ∧
    p.matchCase = t.sent0x20

theorem sendQuery_sent (h : sendQuery cfg env w id t address transport = (w', none)) :
    w.budgets t.budget < cfg.maxUpstreamQueries ∧ ∃ (t' : Task) (p : Pending) (draws : ℕ),
      t' = { t with
        tried := if transport == .tcp then t.tried else t.tried ++ [address]
        asked := address, overTcp := transport == .tcp
        sent0x20 := cfg.use0x20 && !transport == .tcp && !w.shared.no0x20.contains address
        sentAt := w.shared.now, upstream := some w.nextQuery } ∧
      p.task = id ∧ Asks t' p ∧
      w' = { w with
        shared := { w.shared with draws }
        budgets := Function.update w.budgets t.budget (w.budgets t.budget + 1)
        nextQuery := w.nextQuery + 1
        pending := Function.update w.pending w.nextQuery (some p)
        tasks := Function.update w.tasks id (some t')
        trace := .sent id t.visits t.budget address transport p.question :: w.trace } := by
  unfold sendQuery at h
  split_ifs at h with hbudget
  · exact absurd (Prod.mk.inj h).2 (by simp)
  refine ⟨UInt32.not_le.mp hbudget, ?_⟩
  dsimp only at h
  -- the name asked for differs from `t.qname` in letter case only
  generalize (cfg.use0x20 && !transport == .tcp && !w.shared.no0x20.contains address) = upper at h ⊢
  cases upper <;> obtain ⟨rfl, -⟩ := Prod.mk.inj h <;>
    exact ⟨_, _, _, rfl, rfl, ⟨rfl, Question.beq_iff.mpr ⟨rfl, rfl, rfl⟩, rfl, rfl⟩, rfl⟩

theorem sendQuery_over {result : Outcome}
    (h : sendQuery cfg env w id t address transport = (w', some result)) :
    w' = w.putTask id t ∧ result = .error .maxQueriesExceeded := by
  unfold sendQuery at h
  split_ifs at h with hbudget
  · obtain ⟨rfl, hresult⟩ := Prod.mk.inj h
    exact ⟨rfl, (Option.some.inj hresult).symm⟩
  · exact absurd (Prod.mk.inj h).2 (by simp)

theorem spawnClient_eq (w : World) (q : Question) (cb : ℕ) :
    spawnClient cfg w q cb = { w with
      nextTaskId := w.nextTaskId + 1
      nextTimer := w.nextTimer + 1 + 1
      timers := Function.update
        (Function.update w.timers w.nextTimer (some ⟨w.shared.now + 0, .start w.nextTaskId⟩))
        (w.nextTimer + 1)
        (some ⟨w.shared.now + cfg.overallDeadlineMs.toNat * kMillisecond, .deadline w.nextTaskId⟩)
      inFlight := Function.update w.inFlight (questionKey q) (some w.nextTaskId)
      budgets := Function.update w.budgets w.nextTaskId 0
      tasks := Function.update w.tasks w.nextTaskId (some
        { question := q, qname := q.qname, budget := w.nextTaskId, started := w.shared.now
          done := .callback cb, startTimer := some w.nextTimer, client := true
          deadline := some (w.nextTimer + 1) }) } := by
  unfold spawnClient spawn
  dsimp only [World.addTimer, World.putTask]
  simp only [Function.update_self, Function.update_idem]

theorem spawnChild_eq (w : World) (id : ℕ) (t : Task) (q : Question) (ancestry : List Question) :
    spawnChild w id t q ancestry = { w with
      nextTaskId := w.nextTaskId + 1
      nextTimer := w.nextTimer + 1
      timers := Function.update w.timers w.nextTimer
        (some ⟨w.shared.now + 0, .start w.nextTaskId⟩)
      tasks := Function.update (Function.update w.tasks w.nextTaskId (some
        { question := q, qname := q.qname, ancestry, budget := t.budget, started := w.shared.now
          done := .onChildDone id, startTimer := some w.nextTimer })) id
        (some { t with child := some w.nextTaskId })
      trace := .spawned id t.visits w.nextTaskId :: w.trace } := rfl

end DNSentinel.Resolver.Phases
