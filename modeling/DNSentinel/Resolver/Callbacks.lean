import DNSentinel.Resolver.Events
import DNSentinel.Lib.Tokens

/-! # Callbacks

Every callback given to `resolve()` is held by one live task, then queued by `finish()`, then called:
the callbacks are the tokens of a ledger (`Lib.Tokens`). A callback is called with the result of a
task for its own question. With the wiring of tasks and wake-ups this is what `resolve()` promises:
every call is answered exactly once, and no task is ever stuck. -/

namespace DNSentinel.Resolver.Callbacks

open DNSentinel.Types Lib.Pairs Lib.Runs Lib.Tokens Selection Data Resolver.Core Machine Turns
open Effects Phases Wiring Events

/-! ### The ledger -/

/-- The callbacks a task has to call: its `done`, and those of its joiners. -/
def callbacks (t : Task) : List ℕ :=
  (match t.done with
    | .callback cb => [cb]
    | .onChildDone _ => []) ++ t.joiners.map Waiter.done

def held (tasks : ℕ → Option Task) (i : ℕ) : List ℕ := (tasks i).elim [] callbacks

/-- The callbacks held; those of a task being released are still held by it. -/
def heldBy (tasks : ℕ → Option Task) : Phase → ℕ → List ℕ
  | .releasing _ id t _ => Function.update (held tasks) id (callbacks t)
  | _ => held tasks

def calledOf : Obs → Option ℕ
  | .called cb _ => some cb
  | _ => none

/-- The callbacks called so far. -/
def called (trace : List Obs) : List ℕ := trace.filterMap calledOf

variable {cfg : Config} {env : Random} {w w' : World} {id : ℕ} {t t₀ : Task}

theorem held_update (tasks : ℕ → Option Task) (id : ℕ) (x : Option Task) :
    held (Function.update tasks id x) = Function.update (held tasks) id (x.elim [] callbacks) := by
  funext i
  unfold held
  by_cases hi : i = id
  · subst hi
    simp
  · simp [hi]

theorem held_put {tasks : ℕ → Option Task} (h : callbacks t = held tasks id) :
    held (Function.update tasks id (some t)) = held tasks := by
  rw [held_update, Option.elim_some, h]
  exact Function.update_eq_self id _

theorem held_some {tasks : ℕ → Option Task} (ht : tasks id = some t) :
    held tasks id = callbacks t := by simp [held, ht]

theorem held_none {tasks : ℕ → Option Task} (ht : tasks id = none) : held tasks id = [] := by
  simp [held, ht]

theorem callbacks_of_life (h : life t = life t₀) : callbacks t = callbacks t₀ := by
  have hdone : t.done = t₀.done := congrArg Life.done h
  have hjoiners : t.joiners = t₀.joiners := congrArg Life.joiners h
  simp only [callbacks, hdone, hjoiners]

/-- A sub-query has nobody to call but its parent. -/
theorem callbacks_of_parent (hp : (parentOf t).isSome = true) (hj : t.joiners = []) :
    callbacks t = [] := by
  unfold parentOf at hp
  unfold callbacks
  cases hdone : t.done <;> simp_all

def LedgerOk (a : Phase × World) : Prop :=
  Ledger (heldBy a.2.tasks a.1) (a.2.calls.map Prod.fst) (called a.2.trace) a.2.nextCallback

theorem called_completion (t : Task) (x : Pending) (result : Except UpstreamError Message)
    (trace : List Obs) : called (completion cfg t x result ++ trace) = called trace := by
  unfold called completion
  split <;> rfl

theorem LedgerOk.congr {a b : Phase × World} (h : LedgerOk a)
    (hheld : heldBy b.2.tasks b.1 = heldBy a.2.tasks a.1) (hcalls : b.2.calls = a.2.calls)
    (hcalled : called b.2.trace = called a.2.trace)
    (hnext : b.2.nextCallback = a.2.nextCallback) : LedgerOk b := by
  unfold LedgerOk at h ⊢
  rwa [hheld, hcalls, hcalled, hnext]

theorem ledger_micro {a b : Phase × World} (hw : Wired a.1 a.2) (hab : Micro cfg env a b)
    (h : LedgerOk a) : LedgerOk b := by
  cases hab with
  | @join w q id t hid ht =>
    have hissue := Ledger.issue h id
    unfold LedgerOk
    dsimp only [heldBy, World.putTask, World.log] at hissue ⊢
    have hmore : callbacks { t with joiners := t.joiners ++ [⟨q, w.shared.now, w.nextCallback⟩] } =
        callbacks t ++ [w.nextCallback] := by simp [callbacks]
    rw [held_some ht, ← hmore] at hissue
    rw [held_update]
    exact hissue
  | @client w q hid =>
    have hissue := Ledger.issue h w.nextTaskId
    unfold LedgerOk
    rw [spawnClient_eq]
    dsimp only [heldBy, World.log] at hissue ⊢
    rw [held_none hw.fresh_task] at hissue
    rw [held_update]
    exact hissue
  | @call w cb result rest hcalls =>
    unfold LedgerOk at h
    rw [hcalls] at h
    exact Ledger.spend h
  | shared _ => exact h
  | start htimer ht | deadline htimer ht => exact h.congr (held_put (held_some ht).symm) rfl rfl rfl
  | upstream hp hok ht =>
    exact h.congr (held_put (held_some ht).symm) rfl (called_completion ..) rfl
  | send ht hstep hsend =>
    obtain ⟨-, u, x, draws, hu, -, -, rfl⟩ := sendQuery_sent hsend
    have hsame := callbacks_of_life (turn_life hstep.ok)
    refine h.congr (held_put ?_) rfl rfl rfl
    rw [held_some ht, hu]
    exact hsame
  | spent ht hstep hsend =>
    obtain ⟨rfl, -⟩ := sendQuery_over hsend
    refine h.congr (held_put ?_) rfl rfl rfl
    exact (callbacks_of_life (turn_life hstep.ok)).trans (held_some ht).symm
  | @child w id wake t₀ t sh q ancestry ht hstep =>
    have hne : id ≠ w.nextTaskId := Nat.ne_of_lt (hw.task_lt id t₀ ht)
    have hsame := callbacks_of_life (turn_life hstep.ok)
    rw [spawnChild_eq]
    refine h.congr ((held_put ?_).trans (held_put (held_none hw.fresh_task).symm)) rfl rfl rfl
    rw [held_some (t := t₀) ((Function.update_of_ne hne ..).trans ht)]
    exact hsame
  | done ht hstep =>
    refine h.congr (held_put ?_) rfl rfl rfl
    exact (callbacks_of_life (turn_life hstep.ok)).trans (held_some ht).symm
  | @drop w id t result ht =>
    refine h.congr ?_ rfl rfl rfl
    show Function.update (held (Function.update w.tasks id none)) id (callbacks t) = held w.tasks
    rw [held_update, Function.update_idem, ← held_some ht]
    exact Function.update_eq_self id _
  | @dropChild w c id tc t result hc =>
    -- a sub-query holds no callback
    obtain ⟨-, -, -, horphan, -⟩ := hw.phase
    obtain ⟨-, tc', hc', hparent⟩ := horphan c rfl
    obtain rfl : tc' = tc := Option.some.inj (hc'.symm.trans hc)
    have hok := hw.tasks c tc' hc
    have hnone : held w.tasks c = [] := by
      rw [held_some hc]
      exact callbacks_of_parent hparent (hok.joiners (by simp [hok.client, hparent]))
    have hsame : held (Function.update w.tasks c none) = held w.tasks := by
      rw [held_update, Option.elim_none, ← hnone]
      exact Function.update_eq_self c _
    refine h.congr ?_ rfl rfl rfl
    show Function.update (held (Function.update w.tasks c none)) id (callbacks t) =
      Function.update (held w.tasks) id (callbacks t)
    rw [hsame]
  | @answer w id cb t result hdone =>
    have hgone := held_none hw.phase.1
    have hrelease := Ledger.release h id
    unfold LedgerOk
    dsimp only [heldBy] at hrelease ⊢
    rw [Function.update_self, Function.update_idem, ← hgone, Function.update_eq_self] at hrelease
    have hcalls : (w.calls ++ (cb, complete w t result) ::
        t.joiners.map (joined w.shared.now (complete w t result))).map Prod.fst =
        w.calls.map Prod.fst ++ callbacks t := by
      simp [callbacks, hdone, joined, Function.comp_def]
    rw [hcalls]
    exact hrelease
  | @wakeParent w id parent t tp result hdone hp =>
    obtain ⟨hgone, hclient, hjoiners, -, -⟩ := hw.phase
    have hparent : (parentOf t).isSome = true := by simp [parentOf, hdone]
    have hnone : callbacks t = [] := callbacks_of_parent hparent (hjoiners (by simp [hclient, hparent]))
    refine h.congr ?_ rfl rfl rfl
    show held (Function.update w.tasks parent (some { tp with child := none })) =
      Function.update (held w.tasks) id (callbacks t)
    rw [hnone, ← held_none hgone, Function.update_eq_self]
    exact held_put (held_some hp).symm

/-! ### What callbacks are called with -/

/-- `r` answers `q` with the result `r'` of a resolution. -/
def SameAnswer (q : Question) : Outcome → Outcome → Prop
  | .ok x, .ok y => y.response = { x.response with questions := [q] }
  | .error e, .error e' => e' = e
  | _, _ => False

/-- `cb` was given for some question, and `r` answers it with the result of the task that had to call
it, which was for an equal question. -/
def Answered (trace : List Obs) (cb : ℕ) (r : Outcome) : Prop :=
  ∃ q id t r', .resolve cb q ∈ trace ∧ .finished id t r' ∈ trace ∧ cb ∈ callbacks t ∧
    questionKey q = questionKey t.question ∧ SameAnswer q r' r

/-- Everybody waiting for `t` asked its question. -/
structure Asked (trace : List Obs) (t : Task) : Prop where
  done : ∀ cb, t.done = .callback cb → .resolve cb t.question ∈ trace
  joiners : ∀ j ∈ t.joiners, .resolve j.done j.question ∈ trace ∧
    questionKey j.question = questionKey t.question

/-- A result repeats the question of its task. -/
def Names (t : Task) (r : Outcome) : Prop := ∀ x, r = .ok x → x.response.questions = [t.question]

/-- The result of a task that is about to end. -/
def Leaving : Phase × World → Prop
  | (.finishing id r, w) => ∀ t, w.tasks id = some t → Names t r
  | (.releasing _ _ t r, w) => Asked w.trace t ∧ Names t r
  | _ => True

structure AnswersOk (a : Phase × World) : Prop where
  asked : ∀ i t, a.2.tasks i = some t → Asked a.2.trace t
  leaving : Leaving a
  answered : ∀ cb r, (cb, r) ∈ a.2.calls ∨ .called cb r ∈ a.2.trace → Answered a.2.trace cb r

theorem Answered.mono {trace trace' : List Obs} {cb : ℕ} {r : Outcome} (h : Answered trace cb r)
    (hsub : trace ⊆ trace') : Answered trace' cb r := by
  obtain ⟨q, id, t, r', hq, ht, hrest⟩ := h
  exact ⟨q, id, t, r', hsub hq, hsub ht, hrest⟩

theorem Asked.mono {trace trace' : List Obs} (h : Asked trace t) (hsub : trace ⊆ trace') :
    Asked trace' t :=
  ⟨fun cb hcb => hsub (h.done cb hcb), fun j hj => ⟨hsub (h.joiners j hj).1, (h.joiners j hj).2⟩⟩

theorem Asked.of_life {trace : List Obs} (h : Asked trace t₀) (hlife : life t = life t₀) :
    Asked trace t := by
  have hquestion : t.question = t₀.question := congrArg Life.question hlife
  have hdone : t.done = t₀.done := congrArg Life.done hlife
  have hjoiners : t.joiners = t₀.joiners := congrArg Life.joiners hlife
  exact ⟨fun cb hcb => hquestion ▸ h.done cb (hdone ▸ hcb),
    fun j hj => hquestion ▸ h.joiners j (hjoiners ▸ hj)⟩

theorem asked_subquery {trace : List Obs} (hparent : (parentOf t).isSome = true)
    (hjoiners : t.joiners = []) : Asked trace t := by
  refine ⟨fun cb hcb => ?_, by simp [hjoiners]⟩
  simp [parentOf, hcb] at hparent

/-- Nothing is called or queued: the trace grows by other records. -/
structure Quiet (w w' : World) : Prop where
  calls : w'.calls = w.calls
  trace : ∃ new, w'.trace = new ++ w.trace ∧ called new = []

theorem Quiet.sub (h : Quiet w w') : w.trace ⊆ w'.trace := by
  obtain ⟨new, hnew, -⟩ := h.trace
  exact hnew ▸ List.subset_append_right new _

theorem AnswersOk.answered_quiet {p : Phase} (h : AnswersOk (p, w)) (hq : Quiet w w') :
    ∀ cb r, (cb, r) ∈ w'.calls ∨ .called cb r ∈ w'.trace → Answered w'.trace cb r := by
  intro cb r hin
  refine (h.answered cb r ?_).mono hq.sub
  obtain ⟨new, hnew, hno⟩ := hq.trace
  rw [hq.calls, hnew, List.mem_append] at hin
  refine hin.imp_right fun hin => hin.resolve_left fun hcalled => ?_
  have hmem : cb ∈ called new := List.mem_filterMap.mpr ⟨_, hcalled, rfl⟩
  rw [hno] at hmem
  exact absurd hmem List.not_mem_nil

/-- One task goes on under the same question, for the same callers. -/
theorem AnswersOk.asked_put {p : Phase} (h : AnswersOk (p, w)) (ht : w.tasks id = some t₀)
    (hsame : Asked w.trace t₀ → Asked w.trace t) (hsub : w.trace ⊆ w'.trace) :
    ∀ i u, Function.update w.tasks id (some t) i = some u → Asked w'.trace u := by
  intro i u hi
  rcases update_some hi with ⟨-, rfl⟩ | ⟨-, hi⟩
  · exact (hsame (h.asked id t₀ ht)).mono hsub
  · exact (h.asked i u hi).mono hsub

theorem names_error {e : ResolveError} : Names t (.error e) := fun _ hx => by simp at hx

/-- What `finish` gets from a step repeats the question. -/
theorem names_finish {wake : Wake} {sh sh' : Shared} {result : Outcome}
    (h : StepOk cfg wake sh t₀ (sh', t, .finish result)) : Names t result := by
  obtain ⟨t', -, hnext⟩ := h.ok
  rintro x rfl
  obtain ⟨-, rcode, answers, authority, hr, -⟩ := hnext
  rw [← Except.ok.inj hr]

theorem names_complete (h : Names t (r : Outcome)) : Names t (complete w t r) := by
  intro x hx
  cases r with
  | error e => simp [complete, Except.map] at hx
  | ok y =>
    obtain rfl := Except.ok.inj hx
    exact h y rfl

theorem sameAnswer_self {r : Outcome} (h : Names t r) : SameAnswer t.question r r := by
  cases r with
  | error e => rfl
  | ok x =>
    show x.response = { x.response with questions := [t.question] }
    rw [← h x rfl]

theorem sameAnswer_joined (now : ℕ) (r : Outcome) (j : Waiter) :
    SameAnswer j.question r (joined now r j).2 := by
  cases r <;> rfl

theorem answers_micro {a b : Phase × World} (hw : Wired a.1 a.2) (hab : Micro cfg env a b)
    (h : AnswersOk a) : AnswersOk b := by
  cases hab with
  | @join w q id t hid ht =>
    obtain ⟨t', ht', -, hkey⟩ := hw.client_task hid
    obtain rfl : t' = t := Option.some.inj (ht'.symm.trans ht)
    have hsub : w.trace ⊆ .resolve w.nextCallback q :: w.trace := List.subset_cons_self ..
    refine ⟨fun i u hi => ?_, trivial, h.answered_quiet ⟨rfl, [_], rfl, rfl⟩⟩
    rcases update_some hi with ⟨-, rfl⟩ | ⟨-, hi⟩
    · have hold := (h.asked id t' ht).mono hsub
      refine ⟨hold.done, fun j hj => ?_⟩
      rcases List.mem_append.mp hj with hj | hj
      · exact hold.joiners j hj
      · obtain rfl := List.mem_singleton.mp hj
        exact ⟨List.mem_cons_self, hkey.symm⟩
    · exact (h.asked i u hi).mono hsub
  | @client w q hid =>
    rw [spawnClient_eq]
    refine ⟨fun i u hi => ?_, trivial, h.answered_quiet ⟨rfl, [_], rfl, rfl⟩⟩
    rcases update_some hi with ⟨-, rfl⟩ | ⟨-, hi⟩
    · refine ⟨fun cb hcb => ?_, by simp⟩
      obtain rfl := Done.callback.inj hcb
      exact List.mem_cons_self
    · exact (h.asked i u hi).mono (List.subset_cons_self ..)
  | @call w cb result rest hcalls =>
    have hsub : w.trace ⊆ .called cb result :: w.trace := List.subset_cons_self ..
    refine ⟨fun i u hi => (h.asked i u hi).mono hsub, trivial, fun cb' r' hin => ?_⟩
    refine (h.answered cb' r' ?_).mono hsub
    rw [hcalls]
    rcases hin with hin | hin
    · exact .inl (List.mem_cons_of_mem _ hin)
    · rcases List.mem_cons.mp hin with heq | hin
      · obtain ⟨rfl, rfl⟩ := Obs.called.inj heq
        exact .inl List.mem_cons_self
      · exact .inr hin
  | shared _ => exact ⟨h.asked, trivial, h.answered⟩
  | start htimer ht =>
    exact ⟨h.asked_put ht (fun ha => ⟨ha.done, ha.joiners⟩) (List.subset_cons_self ..), trivial,
      h.answered_quiet ⟨rfl, [_], rfl, rfl⟩⟩
  | deadline htimer ht =>
    refine ⟨h.asked_put ht (fun ha => ⟨ha.done, ha.joiners⟩) (List.Subset.refl _),
      fun _ _ => names_error, h.answered⟩
  | @upstream w qid x t result hx hok ht =>
    have hquiet : called (completion cfg t x result ++ [.wake x.task t.budget]) = [] :=
      called_completion ..
    have hsub : w.trace ⊆ completion cfg t x result ++ .wake x.task t.budget :: w.trace := by
      rw [← List.singleton_append, ← List.append_assoc]
      exact List.subset_append_right ..
    refine ⟨h.asked_put ht (fun ha => ⟨ha.done, ha.joiners⟩) hsub, trivial,
      h.answered_quiet ⟨rfl, _, ?_, hquiet⟩⟩
    simp [World.putTask]
  | send ht hstep hsend =>
    obtain ⟨-, u, x, draws, hu, -, -, rfl⟩ := sendQuery_sent hsend
    refine ⟨h.asked_put ht (fun ha => ?_) (List.subset_cons_self ..), trivial,
      h.answered_quiet ⟨rfl, [_], rfl, rfl⟩⟩
    have hlife := ha.of_life (turn_life hstep.ok)
    rw [hu]
    exact ⟨hlife.done, hlife.joiners⟩
  | spent ht hstep hsend =>
    obtain ⟨rfl, rfl⟩ := sendQuery_over hsend
    exact ⟨h.asked_put ht (fun ha => ha.of_life (turn_life hstep.ok)) (List.Subset.refl _),
      fun _ _ => names_error, h.answered⟩
  | @child w id wake t₀ t sh q ancestry ht hstep =>
    rw [spawnChild_eq]
    have hsub : w.trace ⊆ .spawned id t.visits w.nextTaskId :: w.trace := List.subset_cons_self ..
    refine ⟨fun i u hi => ?_, trivial, h.answered_quiet ⟨rfl, [_], rfl, rfl⟩⟩
    rcases update_some hi with ⟨-, rfl⟩ | ⟨-, hi⟩
    · have hlife := ((h.asked id t₀ ht).of_life (turn_life hstep.ok)).mono hsub
      exact ⟨hlife.done, hlife.joiners⟩
    rcases update_some hi with ⟨-, rfl⟩ | ⟨-, hi⟩
    · exact asked_subquery rfl rfl
    · exact (h.asked i u hi).mono hsub
  | done ht hstep =>
    refine ⟨h.asked_put ht (fun ha => ha.of_life (turn_life hstep.ok)) (List.Subset.refl _),
      fun u hu => ?_, h.answered⟩
    rcases update_some hu with ⟨-, rfl⟩ | ⟨hne, -⟩
    · exact names_finish hstep
    · exact absurd rfl hne
  | drop ht =>
    exact ⟨fun i u hi => h.asked i u (update_none hi).2, ⟨h.asked _ _ ht, h.leaving _ ht⟩, h.answered⟩
  | dropChild hc => exact ⟨fun i u hi => h.asked i u (update_none hi).2, h.leaving, h.answered⟩
  | @answer w id cb t result hdone =>
    obtain ⟨hasked, hnames⟩ := h.leaving
    have hsub : w.trace ⊆ .finished id t (complete w t result) :: w.trace := List.subset_cons_self ..
    have hfinished : Obs.finished id t (complete w t result) ∈
        Obs.finished id t (complete w t result) :: w.trace := List.mem_cons_self
    refine ⟨fun i u hi => (h.asked i u hi).mono hsub, trivial, fun cb' r' hin => ?_⟩
    have hcases : ((cb', r') ∈ w.calls ∨ .called cb' r' ∈ w.trace) ∨
        (cb', r') = (cb, complete w t result) ∨
        ∃ j ∈ t.joiners, joined w.shared.now (complete w t result) j = (cb', r') := by
      simpa [World.log, or_assoc, or_comm, or_left_comm] using hin
    rcases hcases with hold | heq | ⟨j, hj, hjoined⟩
    · exact (h.answered cb' r' hold).mono hsub
    · obtain ⟨rfl, rfl⟩ := Prod.mk.inj heq
      exact ⟨t.question, id, t, _, hsub (hasked.done _ hdone), hfinished, by simp [callbacks, hdone], rfl,
        sameAnswer_self (names_complete hnames)⟩
    · obtain ⟨hresolve, hkey⟩ := hasked.joiners j hj
      have hsame := sameAnswer_joined w.shared.now (complete w t result) j
      rw [hjoined] at hsame
      obtain rfl : j.done = cb' := congrArg Prod.fst hjoined
      exact ⟨j.question, id, t, _, hsub hresolve, hfinished,
        List.mem_append_right _ (List.mem_map_of_mem hj), hkey, hsame⟩
  | @wakeParent w id parent t tp result hdone hp =>
    refine ⟨h.asked_put hp (fun ha => ⟨ha.done, ha.joiners⟩) ?_, trivial,
      h.answered_quiet ⟨rfl, [_, _], rfl, rfl⟩⟩
    exact List.subset_cons_of_subset _ (List.subset_cons_self ..)

/-! ### Who called `resolve()` -/

def resolvedOf : Obs → Option (ℕ × Question)
  | .resolve cb q => some (cb, q)
  | _ => none

/-- The calls of `resolve()` so far, with the callbacks given. -/
def resolved (trace : List Obs) : List (ℕ × Question) := trace.filterMap resolvedOf

/-- Callbacks are numbered as they are given. -/
def IssuedOk (a : Phase × World) : Prop :=
  (resolved a.2.trace).map Prod.fst = (List.range a.2.nextCallback).reverse

theorem resolved_completion (t : Task) (x : Pending) (result : Except UpstreamError Message)
    (trace : List Obs) : resolved (completion cfg t x result ++ trace) = resolved trace := by
  unfold resolved completion
  split <;> rfl

theorem issued_micro {a b : Phase × World} (hab : Micro cfg env a b) (h : IssuedOk a) :
    IssuedOk b := by
  unfold IssuedOk at h ⊢
  cases hab with
  | @join w q id t hid ht =>
    show w.nextCallback :: (resolved w.trace).map Prod.fst = (List.range (w.nextCallback + 1)).reverse
    rw [List.range_succ, List.reverse_append, h]
    rfl
  | @client w q hid =>
    rw [spawnClient_eq]
    show w.nextCallback :: (resolved w.trace).map Prod.fst = (List.range (w.nextCallback + 1)).reverse
    rw [List.range_succ, List.reverse_append, h]
    rfl
  | @upstream w qid x t result hx hok ht =>
    show (resolved (completion cfg t x result ++ .wake x.task t.budget :: w.trace)).map Prod.fst = _
    rw [resolved_completion]
    exact h
  | send ht hstep hsend =>
    obtain ⟨-, u, x, draws, hu, -, -, rfl⟩ := sendQuery_sent hsend
    exact h
  | spent ht hstep hsend =>
    obtain ⟨rfl, -⟩ := sendQuery_over hsend
    exact h
  | _ => exact h

/-! ### What callers see

Between `resolve()` and the calls of callbacks the resolver works for itself. -/

def isExchange : Obs → Bool
  | .resolve _ _ => true
  | .called _ _ => true
  | _ => false

/-- The calls of `resolve()` and of callbacks so far, and the number of the next callback. -/
def front (w : World) : List Obs × ℕ := (w.trace.filter isExchange, w.nextCallback)

theorem front_cancel : ∀ (fuel : ℕ) (w : World) (id : ℕ), front (cancel fuel w id) = front w
  | 0, _, _ => rfl
  | fuel + 1, w, id => by
    unfold cancel
    cases w.tasks id with
    | none => rfl
    | some t =>
      cases hchild : t.child with
      | none =>
        simp only [hchild]
        rfl
      | some c =>
        simp only [hchild]
        exact front_cancel fuel (remove w id t) c

theorem front_perform (cfg : Config) (env : Random) (w : World) (id : ℕ) (turn : Turn) :
    front (perform cfg env w id turn).1 = front w := by
  obtain ⟨sh, t, next⟩ := turn
  cases next with
  | finish result => rfl
  | spawn q ancestry => rfl
  | sendQuery address transport =>
    unfold perform sendQuery
    dsimp only
    split_ifs <;> rfl

theorem front_wakeParent (cfg : Config) (env : Random) (w : World) (parent : ℕ) (r : Outcome) :
    front (wakeParent cfg env w parent r).1 = front w := by
  unfold wakeParent
  cases w.tasks parent with
  | none => rfl
  | some t => exact front_perform ..

theorem front_finish (cfg : Config) (env : Random) : ∀ (fuel : ℕ) (w : World) (id : ℕ) (r : Outcome),
    front (finish cfg env fuel w id r) = front w
  | 0, _, _, _ => rfl
  | fuel + 1, w, id, r => by
    unfold finish
    cases w.tasks id with
    | none => rfl
    | some t =>
      dsimp only
      cases t.done with
      | callback cb => exact front_cancel ..
      | onChildDone parent =>
        have hwake := front_wakeParent cfg env ((release w id).log
          (.finished id t (complete (release w id) t r))) parent (complete (release w id) t r)
        dsimp only
        generalize wakeParent cfg env ((release w id).log (.finished id t
          (complete (release w id) t r))) parent (complete (release w id) t r) = out at hwake ⊢
        obtain ⟨w', next⟩ := out
        cases next with
        | none => exact hwake.trans (front_cancel ..)
        | some r' =>
          exact (front_finish cfg env fuel w' parent r').trans (hwake.trans (front_cancel ..))

theorem front_runTurn (cfg : Config) (env : Random) (w : World) (id : ℕ) (turn : Turn) :
    front (runTurn cfg env w id turn) = front w := by
  have hperform := front_perform cfg env w id turn
  unfold runTurn
  generalize perform cfg env w id turn = out at hperform ⊢
  obtain ⟨w', next⟩ := out
  cases next with
  | none => exact hperform
  | some r => exact (front_finish ..).trans hperform

/-- The events that do not go through a caller. -/
def isInternal : Event → Bool
  | .resolve _ => false
  | .call => false
  | _ => true

/-- **Nothing else that happens in the resolver is seen by its callers.** -/
theorem front_step {e : Event} (he : isInternal e = true) (h : Step cfg env w e w') :
    front w' = front w := by
  obtain ⟨fuel, h⟩ := h
  cases e with
  | resolve q | call => simp [isInternal] at he
  | timer tid =>
    simp only [apply] at h
    split at h
    · next timer _ htimer =>
      split_ifs at h
      cases hact : timer.action with
      | start id =>
        rw [hact] at h
        simp only [onTimer] at h
        split at h
        · obtain rfl := Option.some.inj h
          rfl
        · obtain ⟨turn, -, rfl⟩ := Option.map_eq_some_iff.mp h
          exact front_runTurn ..
      | deadline id =>
        rw [hact] at h
        simp only [onTimer] at h
        split at h
        · obtain rfl := Option.some.inj h
          rfl
        · obtain rfl := Option.some.inj h
          exact front_finish ..
    · simp at h
  | upstream qid result =>
    simp only [apply] at h
    split at h
    · next x _ hx =>
      split_ifs at h
      simp only [onUpstream] at h
      split at h
      · obtain rfl := Option.some.inj h
        rfl
      · obtain ⟨turn, -, rfl⟩ := Option.map_eq_some_iff.mp h
        refine (front_runTurn ..).trans ?_
        unfold front completion
        split <;> rfl
    · simp at h
  | wait ns =>
    simp only [apply] at h
    split at h
    · obtain rfl := Option.some.inj h
      rfl
    · simp at h
  | evict key | flush =>
    obtain rfl := Option.some.inj h
    rfl

theorem front_resolve (cfg : Config) (w : World) (q : Question) : front (resolveClient cfg w q) =
    (.resolve w.nextCallback q :: w.trace.filter isExchange, w.nextCallback + 1) := by
  unfold resolveClient
  dsimp only
  split
  · split
    · rfl
    · rw [spawnClient_eq]
      rfl
  · rw [spawnClient_eq]
    rfl

theorem called_eq_front (w : World) : called w.trace = called (front w).1 := by
  unfold called front
  rw [List.filterMap_filter]
  refine List.filterMap_congr fun o _ => ?_
  cases o <;> rfl

theorem resolve_mem_front {cb : ℕ} {q : Question} :
    .resolve cb q ∈ (front w).1 ↔ .resolve cb q ∈ w.trace := by
  rw [front, List.mem_filter]
  exact and_iff_left rfl

theorem called_resolve (cfg : Config) (w : World) (q : Question) :
    called (resolveClient cfg w q).trace = called w.trace := by
  rw [called_eq_front, front_resolve, called_eq_front w]
  rfl

theorem resolve_mem_resolve {cb : ℕ} {q q' : Question} :
    .resolve cb q' ∈ (resolveClient cfg w q).trace ↔
      cb = w.nextCallback ∧ q' = q ∨ .resolve cb q' ∈ w.trace := by
  rw [← resolve_mem_front, front_resolve, List.mem_cons, Obs.resolve.injEq, ← resolve_mem_front (w := w)]
  rfl

/-! ### Every call of `resolve()` is answered exactly once -/

/-- What holds of the tasks and the callbacks between events. -/
structure Orderly (w : World) : Prop where
  /-- a callback that waits to be called is held by exactly one live task, once -/
  holder : w.calls = [] → ∀ cb q, .resolve cb q ∈ w.trace → cb ∉ called w.trace →
    ∃ i t, w.tasks i = some t ∧ (callbacks t).count cb = 1 ∧
      ∀ j u, w.tasks j = some u → cb ∈ callbacks u → j = i
  /-- every live task has exactly one wake-up pending -/
  waits : ∀ i t, w.tasks i = some t → wakeUps t = 1
  start : ∀ i t k, w.tasks i = some t → t.startTimer = some k →
    ∃ due, w.timers k = some ⟨due, .start i⟩
  upstream : ∀ i t q, w.tasks i = some t → t.upstream = some q →
    ∃ x, w.pending q = some x ∧ x.task = i
  child : ∀ i t c, w.tasks i = some t → t.child = some c →
    ∃ tc, w.tasks c = some tc ∧ tc.done = .onChildDone i
  /-- a task that is not a client's is the sub-query of exactly one live task -/
  parent : ∀ c tc, w.tasks c = some tc → tc.client = false → ∃ i t, w.tasks i = some t ∧
    t.child = some c ∧ ∀ j u, w.tasks j = some u → u.child = some c → j = i
  /-- `in_flight` has the live client tasks, by question -/
  inFlight : ∀ k i, w.inFlight k = some i ↔
    ∃ t, w.tasks i = some t ∧ t.client = true ∧ questionKey t.question = k
  oneClient : ∀ i j t u, w.tasks i = some t → w.tasks j = some u → t.client = true →
    u.client = true → (t.question == u.question) = true → i = j
  calledOnce : (called w.trace).Nodup
  /-- a callback is called with the answer to its own question, the one its task found -/
  answered : ∀ cb r, .called cb r ∈ w.trace → Answered w.trace cb r
  ownQuestion : ∀ cb q q', .resolve cb q ∈ w.trace → .resolve cb q' ∈ w.trace → q = q'
  allCalled : w.calls = [] → (∀ i, w.tasks i = none) → ∀ cb q, .resolve cb q ∈ w.trace →
    (called w.trace).count cb = 1

theorem parentOf_eq_some {i : ℕ} (h : parentOf t = some i) : t.done = .onChildDone i := by
  unfold parentOf at h
  split at h
  · next hdone =>
    rw [hdone, Option.some.inj h]
  · simp at h

theorem IssuedOk.lt (h : IssuedOk (.idle, w)) {cb : ℕ} {q : Question}
    (hq : .resolve cb q ∈ w.trace) : cb < w.nextCallback := by
  have hmem : cb ∈ (resolved w.trace).map Prod.fst :=
    List.mem_map.mpr ⟨(cb, q), List.mem_filterMap.mpr ⟨_, hq, rfl⟩, rfl⟩
  rw [h] at hmem
  exact List.mem_range.mp (List.mem_reverse.mp hmem)

theorem IssuedOk.own (h : IssuedOk (.idle, w)) {cb : ℕ} {q q' : Question}
    (hq : .resolve cb q ∈ w.trace) (hq' : .resolve cb q' ∈ w.trace) : q = q' := by
  have hnodup : ((resolved w.trace).map Prod.fst).Nodup := by
    rw [h]
    exact List.nodup_reverse.mpr List.nodup_range
  have hin : (cb, q) ∈ resolved w.trace := List.mem_filterMap.mpr ⟨_, hq, rfl⟩
  have hin' : (cb, q') ∈ resolved w.trace := List.mem_filterMap.mpr ⟨_, hq', rfl⟩
  exact (Prod.mk.inj (List.inj_on_of_nodup_map hnodup hin hin' rfl)).2

theorem orderly_of (hw : Wired .idle w) (hl : LedgerOk (.idle, w)) (ha : AnswersOk (.idle, w))
    (hi : IssuedOk (.idle, w)) : Orderly w where
  holder hcalls cb q hq hnot := by
    have hissued := (Ledger.issued hl cb).mp (hi.lt hq)
    rw [hcalls] at hissued
    obtain ⟨i, hmem⟩ := hissued.resolve_right hnot
    cases ht : w.tasks i with
    | none =>
      rw [show heldBy w.tasks .idle i = [] from held_none ht] at hmem
      exact absurd hmem List.not_mem_nil
    | some t =>
      have hheld : heldBy w.tasks .idle i = callbacks t := held_some ht
      refine ⟨i, t, ht, ?_, fun j u hu hcb => ?_⟩
      · exact List.count_eq_one_of_mem (hheld ▸ Ledger.held_nodup hl i) (hheld ▸ hmem)
      · have hj : heldBy w.tasks .idle j = callbacks u := held_some hu
        exact Ledger.holder_unique hl j i cb (hj ▸ hcb) hmem
  waits i t ht := (hw.tasks i t ht).waits (by simp [loose])
  start i t k ht hk := by
    obtain ⟨⟨due, action⟩, hx, hstart⟩ := hw.starts.entry ht hk
    cases action with
    | start j =>
      obtain rfl := Option.some.inj hstart
      exact ⟨due, hx⟩
    | deadline j => simp [startOf] at hstart
  upstream i t q ht hq := by
    obtain ⟨x, hx, htask⟩ := hw.upstreams.entry ht hq
    exact ⟨x, hx, Option.some.inj htask⟩
  child i t c ht hc := by
    have hchildren : Matching (field w.tasks Task.child) (field w.tasks parentOf) := hw.children
    obtain ⟨tc, htc, hparent⟩ := hchildren.entry ht hc
    exact ⟨tc, htc, parentOf_eq_some hparent⟩
  parent c tc htc hclient := by
    have hchildren : Matching (field w.tasks Task.child) (field w.tasks parentOf) := hw.children
    have hsome := (hw.tasks c tc htc).client
    cases hparent : parentOf tc with
    | none => simp [hclient, hparent] at hsome
    | some i =>
      obtain ⟨t, ht, hc⟩ := hchildren.symm.entry htc hparent
      refine ⟨i, t, ht, hc, fun j u hu hcu => ?_⟩
      exact hchildren.left_unique (b := c) (by simp [field, hu, hcu]) (by simp [field, ht, hc])
  inFlight k i := by
    refine ⟨hw.client_task, ?_⟩
    rintro ⟨t, ht, hclient, hkey⟩
    refine (hw.clients k i).mpr ?_
    simp [field, ht, clientKey, hclient, hkey]
  oneClient i j t u ht hu htc huc hq := by
    have hkey : questionKey t.question = questionKey u.question := by
      obtain ⟨h1, h2, h3⟩ := Question.beq_iff.mp hq
      simp only [questionKey, h1, h2, h3]
    refine hw.clients.symm.left_unique (b := questionKey u.question) ?_ ?_
    · simp [field, ht, clientKey, htc, hkey]
    · simp [field, hu, clientKey, huc]
  calledOnce := (List.nodup_append.mp (Ledger.gone_nodup hl)).2.1
  answered cb r hr := ha.answered cb r (.inr hr)
  ownQuestion _ _ _ := hi.own
  allCalled hcalls hnone cb q hq := by
    have hissued := (Ledger.issued hl cb).mp (hi.lt hq)
    have hnodup := Ledger.gone_nodup hl
    rw [hcalls] at hissued hnodup
    refine List.count_eq_one_of_mem hnodup (hissued.resolve_left ?_)
    rintro ⟨i, hmem⟩
    rw [show heldBy w.tasks .idle i = [] from held_none (hnone i)] at hmem
    exact absurd hmem List.not_mem_nil

/-- What every event keeps. -/
structure CallersOk (w : World) : Prop where
  wired : Wired .idle w
  ledger : LedgerOk (.idle, w)
  answers : AnswersOk (.idle, w)
  issued : IssuedOk (.idle, w)

theorem callersOk_init (sh : Shared) : CallersOk { shared := sh } :=
  ⟨wired_init sh, ledger_empty, ⟨by simp, trivial, by simp⟩, rfl⟩

theorem callersOk_step {e : Event} (h : CallersOk w) (hs : Step cfg env w e w') : CallersOk w' := by
  have hrun : Run (Step cfg env) w [e] w' := .cons hs (.nil w')
  exact ⟨wired_run hrun h.wired, run_keeps (fun _ _ => ledger_micro) hrun h.wired h.ledger,
    run_keeps (fun _ _ => answers_micro) hrun h.wired h.answers,
    run_keeps (fun _ _ _ => issued_micro) hrun h.wired h.issued⟩

theorem orderly_run {sh : Shared} {es : List Event} (h : Run (Step cfg env) { shared := sh } es w) :
    Orderly w := by
  have hkept : CallersOk w :=
    h.invariant (P := CallersOk) (fun _ _ _ hw hs => callersOk_step hw hs) (callersOk_init sh)
  exact orderly_of hkept.wired hkept.ledger hkept.answers hkept.issued

/-- **Every `resolve()` is answered exactly once, and no task is ever stuck**, whatever the state the
cache and the server statistics start from; and no callback is called inside `resolve()`. -/
theorem resolve_answered_once {sh : Shared} {es : List Event}
    (h : Run (Step cfg env) { shared := sh } es w) :
    Orderly w ∧ ∀ q w', Step cfg env w (.resolve q) w' →
      w'.calls = w.calls ∧ called w'.trace = called w.trace := by
  refine ⟨orderly_run h, fun q w' ⟨fuel, hs⟩ => ?_⟩
  obtain rfl := Option.some.inj hs
  unfold resolveClient
  dsimp only
  split
  · split
    · exact ⟨rfl, rfl⟩
    · rw [spawnClient_eq]
      exact ⟨rfl, rfl⟩
  · rw [spawnClient_eq]
    exact ⟨rfl, rfl⟩

/-- Two clients ask the same question, one of them in a capital letter; one query answers both. -/
def joinedEvents : List Event :=
  [.resolve ⟨letter 97, RRType.A, kClassIN⟩, .resolve ⟨⟨[[97]], [[65]]⟩, RRType.A, kClassIN⟩, .timer 1,
    .upstream 1 (.ok (reply ⟨letter 97, RRType.A, kClassIN⟩
      { header := { aa := true }, answers := [{ name := letter 97, rdata := .a 7, ttl := 60 }] })),
    .call, .call]

theorem resolve_answered_once_joined :
    ∃ w, Run (Step sampleConfig fun _ => 0) sampleStart joinedEvents w ∧
      (w.calls.isEmpty && called w.trace == [1, 0]) = true ∧ Orderly w := by
  obtain ⟨w, hrun, hcalled⟩ := exists_run joinedEvents
    (P := fun w => w.calls.isEmpty && called w.trace == [1, 0]) (by decide +kernel)
  have hrun' : Run (Step sampleConfig fun _ => 0) { shared := sampleStart.shared } _ w := hrun
  exact ⟨w, hrun, hcalled, (resolve_answered_once hrun').1⟩

end DNSentinel.Resolver.Callbacks
