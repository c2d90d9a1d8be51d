import DNSentinel.Resolver.Phases

/-! # Runs in step

Events are deterministic: fuel only bounds how long they are run. What a query in flight looks like
matters to no event but its own completion, and the trace to none. So two states that differ in that
(`Twins`) stay so under the same events. -/

namespace DNSentinel.Resolver.Lockstep

open DNSentinel.Types Lib.Pairs Store.Model Selection Data Resolver.Core Machine Phases

variable {cfg : Config} {env : Random}

/-! ### Fuel -/

theorem stepLoop_le : ∀ {fuel fuel' : ℕ} {sh : Shared} {t : Task} {turn : Turn}, fuel ≤ fuel' →
    stepLoop cfg env fuel sh t = some turn → stepLoop cfg env fuel' sh t = some turn
  | 0, _, _, _, _, _, h => by simp [stepLoop] at h
  | fuel + 1, 0, _, _, _, hle, _ => by omega
  | fuel + 1, fuel' + 1, sh, t, turn, hle, h => by
    unfold stepLoop at h ⊢
    dsimp only at h ⊢
    generalize sh.lookup ⟨t.qname, kNxdomainType, kClassIN⟩ = x at h ⊢
    obtain ⟨nx, sh⟩ := x
    cases nx with
    | some nx => exact h
    | none =>
    dsimp only at h ⊢
    generalize sh.lookup ⟨t.qname, t.question.qtype, kClassIN⟩ = x at h ⊢
    obtain ⟨hit, sh⟩ := x
    dsimp only at h ⊢
    generalize hit.filter (fun e => e.isNegative || e.trust == .answer) = usable at h ⊢
    cases usable with
    | some e => exact h
    | none =>
    dsimp only at h ⊢
    by_cases hqtype : t.question.qtype = kTypeCNAME
    · rw [if_pos hqtype] at h ⊢
      exact h
    rw [if_neg hqtype] at h ⊢
    generalize sh.lookup ⟨t.qname, kTypeCNAME, kClassIN⟩ = x at h ⊢
    obtain ⟨cname, sh⟩ := x
    dsimp only at h ⊢
    cases hr : usableCname cname with
    | none =>
      rw [hr] at h
      exact h
    | some r =>
      rw [hr] at h
      dsimp only at h ⊢
      cases hu : followCname cfg t r with
      | none =>
        rw [hu] at h
        exact h
      | some u =>
        rw [hu] at h
        exact stepLoop_le (Nat.le_of_succ_le_succ hle) h

theorem step_le {fuel fuel' : ℕ} {sh : Shared} {t : Task} {turn : Turn} (hle : fuel ≤ fuel')
    (h : step cfg env fuel sh t = some turn) : step cfg env fuel' sh t = some turn := by
  unfold step at h ⊢
  split_ifs at h ⊢
  · exact h
  · exact stepLoop_le hle h

theorem answerLoop_le {source : Source} {response : Message} {rank : TrustRank} :
    ∀ {fuel fuel' : ℕ} {followed : Bool} {sh : Shared} {t : Task}
      {x : Shared × Task × (Next ⊕ Bool)}, fuel ≤ fuel' →
    answerLoop cfg source response rank fuel followed sh t = some x →
    answerLoop cfg source response rank fuel' followed sh t = some x
  | 0, _, _, _, _, _, _, h => by simp [answerLoop] at h
  | fuel + 1, 0, _, _, _, _, hle, _ => by omega
  | fuel + 1, fuel' + 1, followed, sh, t, x, hle, h => by
    unfold answerLoop at h ⊢
    dsimp only at h ⊢
    by_cases hrrset : (!(collect response.answers t.qname t.question.qtype).isEmpty) = true
    · rw [if_pos hrrset] at h ⊢
      exact h
    rw [if_neg hrrset] at h ⊢
    by_cases hqtype : t.question.qtype = kTypeCNAME
    · rw [if_pos hqtype] at h ⊢
      exact h
    rw [if_neg hqtype] at h ⊢
    cases hc : collect response.answers t.qname kTypeCNAME with
    | nil =>
      rw [hc] at h
      exact h
    | cons cname rest =>
      rw [hc] at h
      dsimp only at h ⊢
      cases hu : followCname cfg t cname with
      | none =>
        rw [hu] at h
        exact h
      | some u =>
        rw [hu] at h
        exact answerLoop_le (Nat.le_of_succ_le_succ hle) h

theorem onResponse_le {fuel fuel' : ℕ} {sh : Shared} {t : Task}
    {response : Except UpstreamError Message} {turn : Turn} (hle : fuel ≤ fuel')
    (h : onResponse cfg env fuel sh t response = some turn) :
    onResponse cfg env fuel' sh t response = some turn := by
  have hfiltered : ∀ {source : Source} {m : Message} {rtt : ℕ},
      handleFiltered cfg env fuel source m sh t rtt = some turn →
      handleFiltered cfg env fuel' source m sh t rtt = some turn := by
    intro source m rtt h
    obtain ⟨x, hx, h⟩ := Option.bind_eq_some_iff.mp h
    refine Option.bind_eq_some_iff.mpr ⟨x, answerLoop_le hle hx, ?_⟩
    obtain ⟨sh, t, next | followed⟩ := x
    · exact h
    · cases followed with
      | true => exact step_le hle h
      | false => exact h
  cases response with
  | error e => cases e <;> exact h
  | ok m =>
    unfold onResponse handleResponse at h ⊢
    dsimp only at h ⊢
    split_ifs at h ⊢
    all_goals first | exact h | exact hfiltered h

theorem onTimer_le {fuel fuel' : ℕ} {w w' : World} {action : TimerAction} (hle : fuel ≤ fuel')
    (h : onTimer cfg env fuel w action = some w') : onTimer cfg env fuel' w action = some w' := by
  cases action with
  | deadline id => exact h
  | start id =>
    unfold onTimer at h ⊢
    dsimp only at h ⊢
    cases ht : w.tasks id with
    | none =>
      rw [ht] at h
      exact h
    | some t =>
      rw [ht] at h
      obtain ⟨turn, hturn, hw⟩ := Option.map_eq_some_iff.mp h
      exact Option.map_eq_some_iff.mpr ⟨turn, step_le hle hturn, hw⟩

theorem onUpstream_le {fuel fuel' : ℕ} {w w' : World} {p : Pending}
    {result : Except UpstreamError Message} (hle : fuel ≤ fuel')
    (h : onUpstream cfg env fuel w p result = some w') :
    onUpstream cfg env fuel' w p result = some w' := by
  unfold onUpstream at h ⊢
  cases ht : w.tasks p.task with
  | none =>
    rw [ht] at h
    exact h
  | some t =>
    rw [ht] at h
    obtain ⟨turn, hturn, hw⟩ := Option.map_eq_some_iff.mp h
    exact Option.map_eq_some_iff.mpr ⟨turn, onResponse_le hle hturn, hw⟩

theorem apply_timer {fuel tid : ℕ} {w w' : World} :
    apply cfg env fuel w (.timer tid) = some w' ↔ ∃ timer, w.calls = [] ∧
      w.timers tid = some timer ∧ timer.due ≤ w.shared.now ∧
      onTimer cfg env fuel { w with timers := without w.timers (some tid) } timer.action = some w' := by
  unfold apply
  dsimp only
  constructor
  · intro h
    split at h
    · next timer hcalls htimer =>
      split_ifs at h with hdue
      exact ⟨timer, hcalls, htimer, hdue, h⟩
    · simp at h
  · rintro ⟨timer, hcalls, htimer, hdue, h⟩
    split
    · next timer' _ htimer' =>
      obtain rfl := Option.some.inj (htimer.symm.trans htimer')
      rw [if_pos hdue]
      exact h
    · next hno => exact absurd htimer (hno timer hcalls)

theorem apply_upstream {fuel q : ℕ} {w w' : World} {result : Except UpstreamError Message} :
    apply cfg env fuel w (.upstream q result) = some w' ↔ ∃ p, w.calls = [] ∧
      w.pending q = some p ∧ allowed cfg w.shared.now p result = true ∧
      onUpstream cfg env fuel { w with pending := without w.pending (some q) } p result = some w' := by
  unfold apply
  dsimp only
  constructor
  · intro h
    split at h
    · next p hcalls hp =>
      split_ifs at h with hallowed
      exact ⟨p, hcalls, hp, hallowed, h⟩
    · simp at h
  · rintro ⟨p, hcalls, hp, hallowed, h⟩
    split
    · next p' _ hp' =>
      obtain rfl := Option.some.inj (hp.symm.trans hp')
      rw [if_pos hallowed]
      exact h
    · next hno => exact absurd hp (hno p hcalls)

/-- **More fuel makes no difference.** -/
theorem apply_le {fuel fuel' : ℕ} {w w' : World} {e : Event} (hle : fuel ≤ fuel')
    (h : apply cfg env fuel w e = some w') : apply cfg env fuel' w e = some w' := by
  cases e with
  | timer tid =>
    obtain ⟨timer, hcalls, htimer, hdue, h⟩ := apply_timer.mp h
    exact apply_timer.mpr ⟨timer, hcalls, htimer, hdue, onTimer_le hle h⟩
  | upstream q result =>
    obtain ⟨p, hcalls, hp, hallowed, h⟩ := apply_upstream.mp h
    exact apply_upstream.mpr ⟨p, hcalls, hp, hallowed, onUpstream_le hle h⟩
  | _ => exact h

/-! ### States that differ in the look of a query -/

/-- The query `qid` may look different in the two tables, but is the same task's. -/
structure LooksAlike (qid : ℕ) (pending pending' : ℕ → Option Pending) : Prop where
  others : ∀ i, i ≠ qid → pending' i = pending i
  task : (pending' qid).map Pending.task = (pending qid).map Pending.task

/-- The trace is another, and so may be the look of the query `qid`. -/
inductive Twins (qid : ℕ) : World → World → Prop where
  | mk (w : World) (pending : ℕ → Option Pending) (trace : List Obs)
      (alike : LooksAlike qid w.pending pending) : Twins qid w { w with pending, trace }

variable {qid : ℕ} {w w' : World} {table table' : ℕ → Option Pending}

theorem LooksAlike.update (h : LooksAlike qid table table') (i : ℕ) (x : Option Pending) :
    LooksAlike qid (Function.update table i x) (Function.update table' i x) := by
  constructor
  · intro j hj
    by_cases hij : j = i
    · subst hij
      rw [Function.update_self, Function.update_self]
    · rw [Function.update_of_ne hij, Function.update_of_ne hij, h.others j hj]
  · by_cases hij : qid = i
    · subst hij
      rw [Function.update_self, Function.update_self]
    · rw [Function.update_of_ne hij, Function.update_of_ne hij, h.task]

theorem LooksAlike.without (h : LooksAlike qid table table') (q : Option ℕ) :
    LooksAlike qid (without table q) (without table' q) := by
  cases q with
  | none => exact h
  | some i => exact h.update i none

namespace Twins

theorem shared (h : Twins qid w w') : w'.shared = w.shared := by cases h; rfl

theorem tasks (h : Twins qid w w') : w'.tasks = w.tasks := by cases h; rfl

theorem calls (h : Twins qid w w') : w'.calls = w.calls := by cases h; rfl

theorem nextTaskId (h : Twins qid w w') : w'.nextTaskId = w.nextTaskId := by cases h; rfl

theorem pending (h : Twins qid w w') : LooksAlike qid w.pending w'.pending := by
  obtain ⟨pending, trace, alike⟩ := h
  exact alike

theorem putTask (h : Twins qid w w') (id : ℕ) (t : Task) :
    Twins qid (w.putTask id t) (w'.putTask id t) := by
  obtain ⟨pending, trace, alike⟩ := h
  exact .mk _ pending _ alike

theorem setTrace (h : Twins qid w w') (trace trace' : List Obs) :
    Twins qid { w with trace } { w' with trace := trace' } := by
  obtain ⟨pending, trace, alike⟩ := h
  exact .mk _ pending _ alike

theorem setShared (h : Twins qid w w') (sh : Shared) :
    Twins qid { w with shared := sh } { w' with shared := sh } := by
  obtain ⟨pending, trace, alike⟩ := h
  exact .mk _ pending _ alike

theorem setCalls (h : Twins qid w w') (calls : List (ℕ × Outcome)) :
    Twins qid { w with calls } { w' with calls } := by
  obtain ⟨pending, trace, alike⟩ := h
  exact .mk _ pending _ alike

theorem setPending (h : Twins qid w w') (q : Option ℕ) :
    Twins qid { w with pending := without w.pending q }
      { w' with pending := without w'.pending q } := by
  obtain ⟨pending, trace, alike⟩ := h
  exact .mk _ _ _ (alike.without q)

theorem setTimers (h : Twins qid w w') (tid : Option ℕ) :
    Twins qid { w with timers := without w.timers tid }
      { w' with timers := without w'.timers tid } := by
  obtain ⟨pending, trace, alike⟩ := h
  exact .mk _ pending _ alike

/-! ### Tasks come and go -/

theorem resolveClient (h : Twins qid w w') (q : Question) :
    Twins qid (resolveClient cfg w q) (resolveClient cfg w' q) := by
  obtain ⟨pending, trace, alike⟩ := h
  unfold Machine.resolveClient
  dsimp only [World.log]
  rw [spawnClient_eq, spawnClient_eq]
  cases hid : w.inFlight (questionKey q) with
  | none => exact .mk _ pending _ alike
  | some id =>
    dsimp only
    cases ht : w.tasks id with
    | none | some t => exact .mk _ pending _ alike

theorem remove (h : Twins qid w w') (id : ℕ) (t : Task) :
    Twins qid (remove w id t) (remove w' id t) := by
  obtain ⟨pending, trace, alike⟩ := h
  exact .mk _ _ _ (alike.without t.upstream)

theorem cancel : ∀ (fuel : ℕ) {w w' : World} (id : ℕ), Twins qid w w' →
    Twins qid (cancel fuel w id) (cancel fuel w' id)
  | 0, _, _, _, h => h
  | fuel + 1, w, w', id, h => by
    unfold Machine.cancel
    rw [h.tasks]
    cases w.tasks id with
    | none => exact h
    | some t =>
      dsimp only
      cases t.child with
      | none => exact h.remove id t
      | some c => exact cancel fuel c (h.remove id t)

theorem release (h : Twins qid w w') (id : ℕ) : Twins qid (release w id) (release w' id) := by
  unfold Machine.release
  rw [h.nextTaskId]
  exact h.cancel _ id

/-! ### Last calls -/

theorem sendQuery (h : Twins qid w w') (id : ℕ) (t : Task) (address : Address)
    (transport : UpstreamTransport) :
    Twins qid (sendQuery cfg env w id t address transport).1
        (sendQuery cfg env w' id t address transport).1 ∧
      (sendQuery cfg env w id t address transport).2 =
        (sendQuery cfg env w' id t address transport).2 := by
  obtain ⟨pending, trace, alike⟩ := h
  unfold Machine.sendQuery
  dsimp only
  by_cases hspent : cfg.maxUpstreamQueries ≤ w.budgets t.budget
  · rw [if_pos hspent, if_pos hspent]
    exact ⟨.mk _ pending _ alike, rfl⟩
  · rw [if_neg hspent, if_neg hspent]
    exact ⟨.mk _ _ _ (alike.update _ _), rfl⟩

theorem perform (cfg : Config) (env : Random) (h : Twins qid w w') (id : ℕ) (turn : Turn) :
    Twins qid (perform cfg env w id turn).1 (perform cfg env w' id turn).1 ∧
      (perform cfg env w id turn).2 = (perform cfg env w' id turn).2 := by
  obtain ⟨sh, t, next⟩ := turn
  have hsh := h.setShared sh
  cases next with
  | finish result => exact ⟨hsh.putTask id t, rfl⟩
  | sendQuery address transport => exact hsh.sendQuery id t address transport
  | spawn q ancestry =>
    refine ⟨?_, rfl⟩
    dsimp only [Machine.perform]
    rw [spawnChild_eq, spawnChild_eq]
    obtain ⟨pending, trace, alike⟩ := h
    exact .mk _ pending _ alike

theorem wakeParent (cfg : Config) (env : Random) (h : Twins qid w w') (parent : ℕ) (result : Outcome) :
    Twins qid (wakeParent cfg env w parent result).1 (wakeParent cfg env w' parent result).1 ∧
      (wakeParent cfg env w parent result).2 = (wakeParent cfg env w' parent result).2 := by
  unfold Machine.wakeParent
  rw [h.tasks, h.shared]
  cases w.tasks parent with
  | none => exact ⟨h, rfl⟩
  | some t => exact (h.setTrace _ _).perform cfg env parent _

theorem finish : ∀ (fuel : ℕ) {w w' : World} (id : ℕ) (result : Outcome), Twins qid w w' →
    Twins qid (finish cfg env fuel w id result) (finish cfg env fuel w' id result)
  | 0, _, _, _, _, h => h
  | fuel + 1, w, w', id, result, h => by
    unfold Machine.finish
    rw [h.tasks]
    cases w.tasks id with
    | none => exact h
    | some t =>
      have hreleased := h.release id
      generalize Machine.release w id = x at hreleased ⊢
      generalize Machine.release w' id = x' at hreleased ⊢
      have hresult : complete x' t result = complete x t result := by
        obtain ⟨pending, trace, alike⟩ := hreleased
        rfl
      dsimp only
      rw [hresult, hreleased.shared]
      generalize complete x t result = outcome
      have hlogged := hreleased.setTrace (.finished id t outcome :: x.trace)
        (.finished id t outcome :: x'.trace)
      cases t.done with
      | callback cb =>
        dsimp only
        have hcalls : (x'.log (.finished id t outcome)).calls =
          (x.log (.finished id t outcome)).calls := hreleased.calls
        rw [hcalls]
        exact hlogged.setCalls _
      | onChildDone parent =>
        dsimp only
        have hwoken := hlogged.wakeParent cfg env parent outcome
        change Twins qid (Machine.wakeParent cfg env (x.log (.finished id t outcome)) parent outcome).1
          (Machine.wakeParent cfg env (x'.log (.finished id t outcome)) parent outcome).1 ∧
          (Machine.wakeParent cfg env (x.log (.finished id t outcome)) parent outcome).2 =
          (Machine.wakeParent cfg env (x'.log (.finished id t outcome)) parent outcome).2 at hwoken
        generalize Machine.wakeParent cfg env (x.log (.finished id t outcome)) parent outcome = y
          at hwoken ⊢
        generalize Machine.wakeParent cfg env (x'.log (.finished id t outcome)) parent outcome = y'
          at hwoken ⊢
        obtain ⟨y, next⟩ := y
        obtain ⟨y', next'⟩ := y'
        obtain ⟨hy, rfl⟩ := hwoken
        cases next with
        | none =>
          dsimp only at hy ⊢
          rw [hy.calls]
          exact hy.setCalls _
        | some r =>
          dsimp only at hy ⊢
          have hdone := finish fuel parent r hy
          rw [hdone.calls]
          exact hdone.setCalls _

theorem runTurn (h : Twins qid w w') (id : ℕ) (turn : Turn) :
    Twins qid (runTurn cfg env w id turn) (runTurn cfg env w' id turn) := by
  unfold Machine.runTurn
  have hperformed := h.perform cfg env id turn
  generalize Machine.perform cfg env w id turn = y at hperformed ⊢
  generalize Machine.perform cfg env w' id turn = y' at hperformed ⊢
  obtain ⟨y, next⟩ := y
  obtain ⟨y', next'⟩ := y'
  obtain ⟨hy, rfl⟩ := hperformed
  cases next with
  | none => exact hy
  | some r =>
    dsimp only at hy ⊢
    rw [hy.nextTaskId]
    exact hy.finish _ id r

end Twins

/-! ### Events -/

theorem onTimer_twins {fuel : ℕ} {action : TimerAction} {v v' : World} (h : Twins qid w w')
    (hv : onTimer cfg env fuel w action = some v) (hv' : onTimer cfg env fuel w' action = some v') :
    Twins qid v v' := by
  unfold onTimer at hv hv'
  cases action with
  | start id =>
    dsimp only at hv hv'
    rw [h.tasks, h.shared] at hv'
    cases ht : w.tasks id with
    | none =>
      rw [ht] at hv hv'
      obtain rfl := Option.some.inj hv
      obtain rfl := Option.some.inj hv'
      exact h
    | some t =>
      rw [ht] at hv hv'
      obtain ⟨turn, hturn, rfl⟩ := Option.map_eq_some_iff.mp hv
      obtain ⟨turn', hturn', rfl⟩ := Option.map_eq_some_iff.mp hv'
      obtain rfl := Option.some.inj (hturn.symm.trans hturn')
      exact (h.setTrace _ _).runTurn id turn
  | deadline id =>
    dsimp only at hv hv'
    rw [h.tasks, h.nextTaskId] at hv'
    cases ht : w.tasks id with
    | none =>
      rw [ht] at hv hv'
      obtain rfl := Option.some.inj hv
      obtain rfl := Option.some.inj hv'
      exact h
    | some t =>
      rw [ht] at hv hv'
      obtain rfl := Option.some.inj hv
      obtain rfl := Option.some.inj hv'
      exact (h.putTask id _).finish _ id _

theorem onUpstream_twins {fuel : ℕ} {p : Pending} {result : Except UpstreamError Message}
    {v v' : World} (h : Twins qid w w') (hv : onUpstream cfg env fuel w p result = some v)
    (hv' : onUpstream cfg env fuel w' p result = some v') : Twins qid v v' := by
  unfold onUpstream at hv hv'
  have htasks : w'.tasks p.task = w.tasks p.task := by rw [h.tasks]
  cases ht : w.tasks p.task with
  | none =>
    rw [ht] at hv
    rw [htasks.trans ht] at hv'
    obtain rfl := Option.some.inj hv
    obtain rfl := Option.some.inj hv'
    exact h
  | some t =>
    rw [ht] at hv
    rw [htasks.trans ht] at hv'
    obtain ⟨turn, hturn, rfl⟩ := Option.map_eq_some_iff.mp hv
    obtain ⟨turn', hturn', rfl⟩ := Option.map_eq_some_iff.mp hv'
    rw [h.shared] at hturn'
    obtain rfl := Option.some.inj (hturn.symm.trans hturn')
    exact (h.setTrace _ _).runTurn p.task turn

/-- **The same event keeps states in step**, if it is not the completion of the query. -/
theorem step_twins {e : Event} {v v' : World} (h : Twins qid w w')
    (he : ∀ result, e ≠ .upstream qid result) (hv : Step cfg env w e v)
    (hv' : Step cfg env w' e v') : Twins qid v v' := by
  obtain ⟨fuel₁, hv⟩ := hv
  obtain ⟨fuel₂, hv'⟩ := hv'
  have hv := apply_le (le_max_left fuel₁ fuel₂) hv
  have hv' := apply_le (le_max_right fuel₁ fuel₂) hv'
  generalize max fuel₁ fuel₂ = fuel at hv hv'
  cases e with
  | timer tid =>
    obtain ⟨timer, -, htimer, -, hv⟩ := apply_timer.mp hv
    obtain ⟨timer', -, htimer', -, hv'⟩ := apply_timer.mp hv'
    have htimers : w'.timers = w.timers := by cases h; rfl
    obtain rfl := Option.some.inj (htimer.symm.trans (htimers ▸ htimer'))
    exact onTimer_twins (h.setTimers _) hv hv'
  | upstream q result =>
    have hq : q ≠ qid := by
      rintro rfl
      exact he result rfl
    obtain ⟨p, -, hp, -, hv⟩ := apply_upstream.mp hv
    obtain ⟨p', -, hp', -, hv'⟩ := apply_upstream.mp hv'
    rw [h.pending.others q hq, hp] at hp'
    obtain rfl := Option.some.inj hp'
    exact onUpstream_twins (h.setPending _) hv hv'
  | resolve q =>
    obtain rfl := Option.some.inj hv
    obtain rfl := Option.some.inj hv'
    exact h.resolveClient q
  | call =>
    unfold apply at hv hv'
    dsimp only at hv hv'
    rw [h.calls] at hv'
    cases hcalls : w.calls with
    | nil =>
      rw [hcalls] at hv
      simp at hv
    | cons c rest =>
      rw [hcalls] at hv hv'
      obtain rfl := Option.some.inj hv
      obtain rfl := Option.some.inj hv'
      exact (h.setCalls rest).setTrace _ _
  | wait ns =>
    unfold apply at hv hv'
    dsimp only at hv hv'
    split at hv
    · split at hv'
      · obtain rfl := Option.some.inj hv
        obtain rfl := Option.some.inj hv'
        rw [h.shared]
        exact h.setShared _
      · simp at hv'
    · simp at hv
  | evict key | flush =>
    obtain rfl := Option.some.inj hv
    obtain rfl := Option.some.inj hv'
    rw [h.shared]
    exact h.setShared _

end DNSentinel.Resolver.Lockstep
