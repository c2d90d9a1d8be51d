import DNSentinel.Resolver.Lockstep
import DNSentinel.Resolver.SharedCase
import DNSentinel.Resolver.Wiring

/-! # Two patterns of one query

`send_query` asks in a random letter case. Sent with other random bits, the query differs in letter case
and ID, and nothing else does (`sendQuery_twins`). Until a reply comes the resolver goes on in step; where
replies that are alike answer the question, the callbacks called are the same and get answers alike
(`reply_alike`). -/

namespace DNSentinel.Resolver.Pattern

open DNSentinel.Types Lib Lib.Pairs Wire.SharedCase Selection Data Resolver.Core Machine Turns
open Effects Wiring SharedCase Lockstep
open List (Forall₂)

variable {cfg : Config} {env env' : Random} {w w₁ w₂ : World} {id : ℕ} {t : Task}

/-! ### The query is sent -/

/-- As many random bits used, and as many left. -/
structure SameUse (s s' : CaseBits) : Prop where
  left : s.left = s'.left
  draws : s.draws = s'.draws

theorem randomizeByte_use {s s' : CaseBits} (h : SameUse s s') (c : UInt8) :
    SameUse (randomizeByte env s c).1 (randomizeByte env' s' c).1 := by
  obtain ⟨bits, left, draws⟩ := s
  obtain ⟨bits', left', draws'⟩ := s'
  obtain ⟨rfl, rfl⟩ := h
  unfold randomizeByte
  split_ifs
  · exact ⟨rfl, rfl⟩
  · exact ⟨rfl, rfl⟩
  · exact ⟨rfl, rfl⟩

theorem randomizeLabel_use : ∀ (l : Label) {s s' : CaseBits}, SameUse s s' →
    SameUse (randomizeLabel env s l).1 (randomizeLabel env' s' l).1
  | [], _, _, h => h
  | c :: cs, _, _, h => randomizeLabel_use cs (randomizeByte_use h c)

theorem randomizeLabels_use : ∀ (ls : List Label) {s s' : CaseBits}, SameUse s s' →
    SameUse (randomizeLabels env s ls).1 (randomizeLabels env' s' ls).1
  | [], _, _, h => h
  | l :: ls, _, _, h => randomizeLabels_use ls (randomizeLabel_use l h)

/-- How many numbers are drawn does not depend on them. -/
theorem randomizeCase_draws (env env' : Random) (draws : ℕ) (n : Name) :
    (randomizeCase env draws n).2 = (randomizeCase env' draws n).2 :=
  (randomizeLabels_use n.labels ⟨rfl, rfl⟩).draws

/-- **Only the look of the query depends on the random bits.** -/
theorem sendQuery_twins {address : Address} {transport : UpstreamTransport}
    (h : sendQuery cfg env w id t address transport = (w₁, none))
    (h' : sendQuery cfg env' w id t address transport = (w₂, none)) : Twins w.nextQuery w₁ w₂ := by
  unfold sendQuery at h h'
  by_cases hspent : cfg.maxUpstreamQueries ≤ w.budgets t.budget
  · rw [if_pos hspent] at h
    simp at h
  rw [if_neg hspent] at h h'
  dsimp only at h h'
  generalize (cfg.use0x20 && !(transport == .tcp) && !w.shared.no0x20.contains address) = sent0x20
    at h h'
  have hdraws : (if sent0x20 = true then randomizeCase env w.shared.draws t.qname
      else (t.qname, w.shared.draws)).2 =
      (if sent0x20 = true then randomizeCase env' w.shared.draws t.qname
        else (t.qname, w.shared.draws)).2 := by
    split_ifs
    · exact randomizeCase_draws env env' _ _
    · rfl
  generalize (if sent0x20 = true then randomizeCase env w.shared.draws t.qname
    else (t.qname, w.shared.draws)) = x at h hdraws
  generalize (if sent0x20 = true then randomizeCase env' w.shared.draws t.qname
    else (t.qname, w.shared.draws)) = x' at h' hdraws
  obtain ⟨name, draws⟩ := x
  obtain ⟨name', draws'⟩ := x'
  obtain rfl : draws = draws' := hdraws
  obtain ⟨rfl, -⟩ := Prod.mk.inj h
  obtain ⟨rfl, -⟩ := Prod.mk.inj h'
  refine .mk _ _ _ ⟨fun i hi => ?_, ?_⟩
  · show Function.update w.pending w.nextQuery _ i = Function.update w.pending w.nextQuery _ i
    rw [Function.update_of_ne hi, Function.update_of_ne hi]
  · show (Function.update w.pending w.nextQuery _ w.nextQuery).map _ =
      (Function.update w.pending w.nextQuery _ w.nextQuery).map _
    rw [Function.update_self, Function.update_self]
    rfl

/-! ### Callbacks that are called with an answer -/

theorem calls_cancel : ∀ (fuel : ℕ) (w : World) (id : ℕ), (cancel fuel w id).calls = w.calls
  | 0, _, _ => rfl
  | fuel + 1, w, id => by
    unfold cancel
    cases w.tasks id with
    | none => rfl
    | some t =>
      dsimp only
      cases t.child with
      | none => rfl
      | some c => exact calls_cancel fuel _ c

theorem calls_perform (w : World) (id : ℕ) (turn : Turn) :
    (perform cfg env w id turn).1.calls = w.calls := by
  obtain ⟨sh, t, next⟩ := turn
  cases next with
  | finish result => rfl
  | spawn q ancestry => rfl
  | sendQuery address transport =>
    unfold perform sendQuery
    dsimp only
    split_ifs <;> rfl

/-- Every callback in the queue is called with an error. -/
def NoAnswer (calls : List (ℕ × Outcome)) : Prop := ∀ cb r, (cb, .ok r) ∉ calls

theorem noAnswer_append {calls calls' : List (ℕ × Outcome)} (h : NoAnswer calls)
    (h' : NoAnswer calls') : NoAnswer (calls ++ calls') := by
  intro cb r hmem
  rcases List.mem_append.mp hmem with hmem | hmem
  · exact h cb r hmem
  · exact h' cb r hmem

theorem noAnswer_joined (now : ℕ) (e : ResolveError) (joiners : List Waiter) :
    NoAnswer (joiners.map (joined now (.error e))) := by
  intro cb r hmem
  obtain ⟨j, -, hj⟩ := List.mem_map.mp hmem
  exact absurd (Prod.mk.inj hj).2 (by simp [Except.map])

/-- A step that is no answer yet ends a task with an error only. -/
theorem perform_error {turn : Turn} {result : Outcome} (hopen : ∀ r, turn.2.2 ≠ .finish (.ok r))
    (h : (perform cfg env w id turn).2 = some result) : ∃ e, result = .error e := by
  obtain ⟨sh, t, next⟩ := turn
  cases next with
  | finish r =>
    obtain rfl := Option.some.inj h
    cases r with
    | error e => exact ⟨e, rfl⟩
    | ok r => exact absurd rfl (hopen r)
  | spawn q ancestry => exact absurd h (by simp [perform])
  | sendQuery address transport =>
    unfold perform sendQuery at h
    dsimp only at h
    split_ifs at h
    obtain rfl := Option.some.inj h
    exact ⟨_, rfl⟩

theorem onChildDone_open (sh : Shared) (t : Task) (child : Outcome) (r : ResolveResult) :
    (onChildDone cfg env sh t child).2.2 ≠ .finish (.ok r) :=
  nextServerLoop_open _ _ _ r

/-- The parent of a sub-query does not answer its client at once. -/
theorem wakeParent_spec (cfg : Config) (env : Random) (w : World) (parent : ℕ) (result : Outcome) :
    (wakeParent cfg env w parent result).1.calls = w.calls ∧
      ∀ r, (wakeParent cfg env w parent result).2 = some r → ∃ e, r = .error e := by
  unfold wakeParent
  cases w.tasks parent with
  | none => exact ⟨rfl, fun r hr => absurd hr (by simp)⟩
  | some t =>
    refine ⟨calls_perform _ _ _, fun r hr => ?_⟩
    exact perform_error (fun r => onChildDone_open _ _ _ r) hr

/-- A sub-query is over: its parent goes on, or ends with an error. -/
theorem noAnswer_woken {fuel : ℕ} (herrors : ∀ (w : World) (id : ℕ) (e : ResolveError),
      NoAnswer w.calls → NoAnswer (finish cfg env fuel w id (.error e)).calls)
    (h : NoAnswer w.calls) (parent : ℕ) (result : Outcome) :
    NoAnswer (match wakeParent cfg env w parent result with
      | (w, none) => w
      | (w, some result) => finish cfg env fuel w parent result).calls := by
  obtain ⟨hcalls, herror⟩ := wakeParent_spec cfg env w parent result
  rcases hwoken : wakeParent cfg env w parent result with ⟨x, next⟩
  rw [hwoken] at hcalls herror
  have hx : NoAnswer x.calls := by
    dsimp only at hcalls
    rw [hcalls]
    exact h
  cases next with
  | none => exact hx
  | some r =>
    obtain ⟨e, rfl⟩ := herror r rfl
    exact herrors x parent e hx

theorem noAnswer_released (h : NoAnswer w.calls) (id : ℕ) : NoAnswer (release w id).calls := by
  unfold release
  rw [calls_cancel]
  exact h

/-- A task that ends with an error, and those that end with it. -/
theorem finish_error : ∀ (fuel : ℕ) (w : World) (id : ℕ) (e : ResolveError), NoAnswer w.calls →
    NoAnswer (finish cfg env fuel w id (.error e)).calls
  | 0, _, _, _, h => h
  | fuel + 1, w, id, e, h => by
    unfold finish
    cases w.tasks id with
    | none => exact h
    | some t =>
      have hreleased := noAnswer_released h id
      have hjoined := noAnswer_joined (release w id).shared.now e t.joiners
      dsimp only
      cases t.done with
      | callback cb =>
        refine noAnswer_append hreleased fun cb' r hmem => ?_
        rcases List.mem_cons.mp hmem with heq | hmem
        · exact absurd (Prod.mk.inj heq).2 (by simp [complete, Except.map])
        · exact hjoined cb' r hmem
      | onChildDone parent =>
        exact noAnswer_append (noAnswer_woken (finish_error fuel) (by exact hreleased) parent _) hjoined

/-- The end of a sub-query answers no client. -/
theorem finish_child {parent : ℕ} (ht : w.tasks id = some t) (hdone : t.done = .onChildDone parent)
    (hjoiners : t.joiners = []) (h : NoAnswer w.calls) (fuel : ℕ) (result : Outcome) :
    NoAnswer (finish cfg env fuel w id result).calls := by
  cases fuel with
  | zero => exact h
  | succ fuel =>
    have hreleased := noAnswer_released h id
    unfold finish
    rw [ht]
    dsimp only
    rw [hdone, hjoiners]
    refine noAnswer_append (noAnswer_woken (finish_error fuel) (by exact hreleased) parent _) ?_
    exact fun _ _ hmem => absurd hmem List.not_mem_nil

theorem calls_finish {fuel cb : ℕ} (hfuel : fuel ≠ 0) (ht : w.tasks id = some t)
    (hdone : t.done = .callback cb) (r : ResolveResult) : ∃ r' now, r'.response = r.response ∧
      (finish cfg env fuel w id (.ok r)).calls =
        w.calls ++ (cb, .ok r') :: t.joiners.map (joined now (.ok r')) := by
  refine ⟨{ r with upstreamQueriesUsed := (release w id).budgets t.budget
                   latencyUs := elapsedUs t.started (release w id).shared.now },
    (release w id).shared.now, rfl, ?_⟩
  obtain ⟨fuel, rfl⟩ := Nat.exists_eq_succ_of_ne_zero hfuel
  unfold finish
  rw [ht]
  dsimp only
  rw [hdone]
  have hcalls : (release w id).calls = w.calls := calls_cancel _ w id
  rw [← hcalls]
  rfl

/-- The client and those who joined it are called back. -/
theorem calls_runTurn {cb : ℕ} (hfuel : w.nextTaskId ≠ 0) (hdone : t.done = .callback cb)
    (sh : Shared) (r : ResolveResult) : ∃ r' now, r'.response = r.response ∧
      (runTurn cfg env w id (sh, t, .finish (.ok r))).calls =
        w.calls ++ (cb, .ok r') :: t.joiners.map (joined now (.ok r')) := by
  have hput : ({ w with shared := sh }.putTask id t).tasks id = some t := Function.update_self ..
  exact calls_finish hfuel hput hdone r

/-- A step that is no answer yet answers no client. -/
theorem runTurn_open {turn : Turn} (hopen : ∀ r, turn.2.2 ≠ .finish (.ok r)) (h : NoAnswer w.calls) :
    NoAnswer (runTurn cfg env w id turn).calls := by
  have hcalls : (perform cfg env w id turn).1.calls = w.calls := calls_perform w id turn
  have herror : ∀ result, (perform cfg env w id turn).2 = some result → ∃ e, result = .error e :=
    fun _ => perform_error hopen
  unfold runTurn
  rcases hperformed : perform cfg env w id turn with ⟨x, next⟩
  rw [hperformed] at hcalls herror
  have hx : NoAnswer x.calls := by
    dsimp only at hcalls
    rw [hcalls]
    exact h
  cases next with
  | none => exact hx
  | some r =>
    obtain ⟨e, rfl⟩ := herror r rfl
    exact finish_error _ x id e hx

/-! ### The reply -/

/-- A callback called with two answers that are alike. -/
def CallAlike (asked : List Label) (c c' : ℕ × Outcome) : Prop :=
  ∃ r r', c = (c'.1, .ok r) ∧ c'.2 = .ok r' ∧ ResponsesAlike asked r.response r'.response

variable {asked : List Label}

theorem joined_alike {r r' : ResolveResult} (h : ResponsesAlike asked r.response r'.response)
    (now now' : ℕ) (j : Waiter) : CallAlike asked (joined now (.ok r) j) (joined now' (.ok r') j) :=
  ⟨_, _, rfl, rfl, h.header, rfl, h.edns, h.answers, h.authority, h.additional⟩

/-- Two steps of a task that end alike, the first with an answer. -/
theorem runTurn_alike {x x' : World} {turn turn' : Turn} (hcalls : x.calls = [])
    (hcalls' : x'.calls = []) (hpos : x.nextTaskId ≠ 0) (hpos' : x'.nextTaskId ≠ 0)
    (hlife : life turn'.2.1 = life turn.2.1)
    (hchild : ∀ parent, turn.2.1.done = .onChildDone parent → turn.2.1.joiners = [])
    (h : Concludes asked turn.2.2 turn'.2.2) {cb : ℕ} {r : ResolveResult}
    (hanswered : (cb, .ok r) ∈ (runTurn cfg env x id turn).calls) :
    Forall₂ (CallAlike asked) (runTurn cfg env x id turn).calls
      (runTurn cfg env x' id turn').calls := by
  have hquiet : NoAnswer x.calls := by
    rw [hcalls]
    exact fun _ _ hmem => absurd hmem List.not_mem_nil
  by_cases hopen : ∀ r, turn.2.2 ≠ .finish (.ok r)
  · exact absurd hanswered (runTurn_open hopen hquiet cb r)
  push Not at hopen
  obtain ⟨s, hs⟩ := hopen
  obtain ⟨s', hs', halike⟩ := h s hs
  obtain ⟨sh, t, next⟩ := turn
  obtain ⟨sh', t', next'⟩ := turn'
  obtain rfl : next = .finish (.ok s) := hs
  obtain rfl : next' = .finish (.ok s') := hs'
  have hdone : t'.done = t.done := congrArg Life.done hlife
  have hjoiners : t'.joiners = t.joiners := congrArg Life.joiners hlife
  cases hcallback : t.done with
  | onChildDone parent =>
    exact absurd hanswered (finish_child (Function.update_self ..) hcallback
      (hchild parent hcallback) (by exact hquiet) _ _ cb r)
  | callback c =>
    obtain ⟨y, now, hy, hqueue⟩ := calls_runTurn hpos hcallback sh s
    obtain ⟨y', now', hy', hqueue'⟩ := calls_runTurn hpos' (hdone.trans hcallback) sh' s'
    rw [hqueue, hqueue', hcalls, hcalls', hjoiners]
    rw [← hy, ← hy'] at halike
    refine .cons ⟨y, y', rfl, rfl, halike⟩ ?_
    rw [List.forall₂_map_left_iff, List.forall₂_map_right_iff]
    exact Aligned.self (joined_alike halike now now') _

variable {v v' u u' : World} {qid : ℕ} {m m' : Message}

/-- **Replies that are alike are answers that are alike**, to the same callbacks. -/
theorem reply_alike (h : Twins qid v v') (hwired : Wired .idle v) (hm : RepliesAlike asked m m')
    (hu : Step cfg env v (.upstream qid (.ok m)) u)
    (hu' : Step cfg env v' (.upstream qid (.ok m')) u') {cb : ℕ} {r : ResolveResult}
    (hanswered : (cb, .ok r) ∈ u.calls) : Forall₂ (CallAlike asked) u.calls u'.calls := by
  obtain ⟨fuel₁, hu⟩ := hu
  obtain ⟨fuel₂, hu'⟩ := hu'
  obtain ⟨p, hcalls, hp, -, hu⟩ := apply_upstream.mp (apply_le (le_max_left fuel₁ fuel₂) hu)
  obtain ⟨p', hcalls', hp', -, hu'⟩ := apply_upstream.mp (apply_le (le_max_right fuel₁ fuel₂) hu')
  generalize max fuel₁ fuel₂ = fuel at hu hu'
  obtain ⟨t, ht, hup⟩ := hwired.pending_task hp
  have htask : p'.task = p.task := by
    have hsame := h.pending.task
    rw [hp, hp'] at hsame
    exact Option.some.inj hsame
  have ht' : v'.tasks p'.task = some t := by rw [htask, h.tasks, ht]
  unfold onUpstream at hu hu'
  rw [ht] at hu
  rw [ht'] at hu'
  obtain ⟨turn, hturn, rfl⟩ := Option.map_eq_some_iff.mp hu
  obtain ⟨turn', hturn', rfl⟩ := Option.map_eq_some_iff.mp hu'
  dsimp only at hturn hturn'
  rw [h.shared] at hturn'
  -- neither step touches who waits for the task
  have hok := hwired.tasks p.task t ht
  have hsome : t.upstream.isSome = true := by simp [hup]
  have hin : InZone { t with upstream := none } := hok.placed (.inl hsome)
  have hlife := turn_life (onResponse_ok hin (hok.asked hsome) hturn)
  have hlife' := turn_life (onResponse_ok hin (hok.asked hsome) hturn')
  have hpos : v.nextTaskId ≠ 0 := Nat.ne_zero_of_lt (hwired.task_lt p.task t ht)
  rw [htask]
  refine runTurn_alike hcalls hcalls' hpos (h.nextTaskId ▸ hpos) (hlife'.trans hlife.symm) ?_
    (onResponse_alike hm hturn hturn') hanswered
  -- a sub-query is not a client's, and nobody joins it
  intro parent hparent
  have hdone : turn.2.1.done = t.done := congrArg Life.done hlife
  have hjoiners : turn.2.1.joiners = t.joiners := congrArg Life.joiners hlife
  rw [hjoiners]
  refine hok.joiners ?_
  rw [hok.client, parentOf, hdone.symm.trans hparent]
  rfl

theorem runTurn_sendQuery {w' : World} {sh : Shared} {address : Address}
    {transport : UpstreamTransport}
    (h : sendQuery cfg env { w with shared := sh } id t address transport = (w', none)) :
    runTurn cfg env w id (sh, t, .sendQuery address transport) = w' := by
  unfold runTurn perform
  dsimp only
  rw [h]

end DNSentinel.Resolver.Pattern
