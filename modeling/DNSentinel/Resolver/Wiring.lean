import DNSentinel.Resolver.Phases

/-! # Tasks and what wakes them

In every state a task and what it waits for point at each other: its start timer, its deadline, its
upstream query, its sub-query; and `in_flight` points at the client tasks (`Wired`). Every change of
`Micro` keeps this. While an event is handled, one task may be without a wake-up, and a finished task
leaves behind a parent without a sub-query and a sub-query without a parent; `Phase` names them. -/

namespace DNSentinel.Resolver.Wiring

open DNSentinel.Types Lib.Pairs Store.Model Selection Data Resolver.Core Machine Turns Effects
open Phases

/-! ### The invariant -/

/-- How many wake-ups a task has pending. -/
def wakeUps (t : Task) : ℕ :=
  t.startTimer.toList.length + t.upstream.toList.length + t.child.toList.length

/-- The task a timer starts. -/
def startOf : Timer → Option ℕ
  | ⟨_, .start id⟩ => some id
  | ⟨_, .deadline _⟩ => none

/-- The task a timer ends. -/
def deadlineOf : Timer → Option ℕ
  | ⟨_, .start _⟩ => none
  | ⟨_, .deadline id⟩ => some id

/-- The task a sub-query is for. -/
def parentOf (t : Task) : Option ℕ :=
  match t.done with
  | .onChildDone parent => some parent
  | .callback _ => none

/-- The task an upstream query is for. -/
def taskOf (x : Pending) : Option ℕ := some x.task

/-- The question a client task is in flight for. -/
def clientKey (t : Task) : Option QuestionKey :=
  if t.client then some (questionKey t.question) else none

/-- The task that may have no wake-up. -/
def loose : Phase → Option ℕ
  | .running id _ => some id
  | .finishing id _ => some id
  | _ => none

/-- The task whose sub-query is gone. -/
def bereft : Phase → Option ℕ
  | .releasing _ _ t _ => parentOf t
  | _ => none

/-- The sub-query whose task is gone. -/
def orphanOf : Phase → Option ℕ
  | .releasing orphan _ _ _ => orphan
  | _ => none

/-- The sub-query a task waits for. -/
def childOf (p : Phase) (tasks : ℕ → Option Task) : ℕ → Option ℕ :=
  without (field tasks Task.child) (bereft p)

/-- The task that waits for a sub-query. -/
def waiterOf (p : Phase) (tasks : ℕ → Option Task) : ℕ → Option ℕ :=
  without (field tasks parentOf) (orphanOf p)

/-- What holds of each live task. -/
structure TaskOk (exempt : Option ℕ) (i : ℕ) (t : Task) : Prop where
  waits : exempt ≠ some i → wakeUps t = 1
  client : t.client = (parentOf t).isNone
  joiners : t.client = false → t.joiners = []
  child_lt : ∀ c ∈ t.child, i < c
  placed : t.upstream.isSome = true ∨ t.child.isSome = true → InZone t
  asked : t.upstream.isSome = true → t.asked ∈ t.servers

/-- What holds of the task in between. -/
def PhaseOk (tasks : ℕ → Option Task) : Phase → Prop
  | .idle => True
  | .running id _ => ∃ t, tasks id = some t ∧ wakeUps t = 0
  | .finishing id _ => ∃ t, tasks id = some t
  | .releasing orphan id t _ => tasks id = none ∧ t.client = (parentOf t).isNone ∧
      (t.client = false → t.joiners = []) ∧
      (∀ c ∈ orphan, id < c ∧ ∃ tc, tasks c = some tc ∧ (parentOf tc).isSome = true) ∧
      ∀ parent ∈ parentOf t, parent < id ∧ ∃ tp, tasks parent = some tp ∧ tp.child = some id

/-- Every task and what it waits for point at each other. -/
structure Wired (p : Phase) (w : World) : Prop where
  task_lt : ∀ i t, w.tasks i = some t → i < w.nextTaskId
  timer_lt : ∀ k x, w.timers k = some x → k < w.nextTimer
  query_lt : ∀ q x, w.pending q = some x → q < w.nextQuery
  starts : Matching (field w.tasks Task.startTimer) (field w.timers startOf)
  deadlines : Matching (field w.tasks Task.deadline) (field w.timers deadlineOf)
  upstreams : Matching (field w.tasks Task.upstream) (field w.pending taskOf)
  children : Matching (childOf p w.tasks) (waiterOf p w.tasks)
  clients : Matching w.inFlight (field w.tasks clientKey)
  tasks : ∀ i t, w.tasks i = some t → TaskOk (loose p) i t
  queries : ∀ q x, w.pending q = some x → ∀ t, w.tasks x.task = some t → Asks t x
  phase : PhaseOk w.tasks p

theorem wired_init (sh : Shared) : Wired .idle { shared := sh } where
  task_lt := by simp
  timer_lt := by simp
  query_lt := by simp
  starts := Matching.empty
  deadlines := Matching.empty
  upstreams := Matching.empty
  children := Matching.empty
  clients := Matching.empty
  tasks := by simp
  queries := by simp
  phase := trivial

variable {cfg : Config} {env : Random} {p : Phase} {w : World} {id : ℕ} {t t₀ : Task}

/-- The invariant is about the tasks and the tables only. -/
theorem Wired.congr (h : Wired p w) {w' : World} (htasks : w'.tasks = w.tasks)
    (htimers : w'.timers = w.timers) (hpending : w'.pending = w.pending)
    (hflight : w'.inFlight = w.inFlight) (hid : w'.nextTaskId = w.nextTaskId)
    (htid : w'.nextTimer = w.nextTimer) (hqid : w'.nextQuery = w.nextQuery) : Wired p w' := by
  obtain ⟨h1, h2, h3, h4, h5, h6, h7, h8, h9, h10, h11⟩ := h
  refine ⟨?_, ?_, ?_, ?_, ?_, ?_, ?_, ?_, ?_, ?_, ?_⟩ <;>
    simp only [htasks, htimers, hpending, hflight, hid, htid, hqid] <;> assumption

theorem Wired.pending_task (h : Wired p w) {q : ℕ} {x : Pending} (hx : w.pending q = some x) :
    ∃ t, w.tasks x.task = some t ∧ t.upstream = some q :=
  h.upstreams.symm.entry hx rfl

theorem Wired.start_task (h : Wired p w) {k due : ℕ} (hk : w.timers k = some ⟨due, .start id⟩) :
    ∃ t, w.tasks id = some t ∧ t.startTimer = some k :=
  h.starts.symm.entry hk rfl

theorem Wired.deadline_task (h : Wired p w) {k due : ℕ}
    (hk : w.timers k = some ⟨due, .deadline id⟩) :
    ∃ t, w.tasks id = some t ∧ t.deadline = some k :=
  h.deadlines.symm.entry hk rfl

theorem Wired.client_task (h : Wired p w) {key : QuestionKey} (hk : w.inFlight key = some id) :
    ∃ t, w.tasks id = some t ∧ t.client = true ∧ questionKey t.question = key := by
  obtain ⟨t, ht, hkey⟩ := Option.bind_eq_some_iff.mp ((h.clients key id).mp hk)
  unfold clientKey at hkey
  split_ifs at hkey with hclient
  exact ⟨t, ht, hclient, Option.some.inj hkey⟩

/-! ### The changes keep the wiring -/

theorem wakeUps_eq_zero (h : wakeUps t = 0) :
    t.startTimer = none ∧ t.upstream = none ∧ t.child = none := by
  unfold wakeUps at h
  refine ⟨?_, ?_, ?_⟩ <;> rw [← Option.toList_eq_nil_iff, ← List.length_eq_zero_iff] <;> omega

theorem loose_start (hone : wakeUps t = 1) {k : ℕ} (h : t.startTimer = some k) :
    wakeUps { t with startTimer := none } = 0 := by
  simp only [wakeUps, h, Option.toList_some, List.length_singleton, Option.toList_none,
    List.length_nil] at hone ⊢
  omega

theorem loose_upstream (hone : wakeUps t = 1) {k : ℕ} (h : t.upstream = some k) :
    wakeUps { t with upstream := none } = 0 := by
  simp only [wakeUps, h, Option.toList_some, List.length_singleton, Option.toList_none,
    List.length_nil] at hone ⊢
  omega

theorem loose_child (hone : wakeUps t = 1) {k : ℕ} (h : t.child = some k) :
    wakeUps { t with child := none } = 0 := by
  simp only [wakeUps, h, Option.toList_some, List.length_singleton, Option.toList_none,
    List.length_nil] at hone ⊢
  omega

theorem wakeUps_of_life (h : life t = life t₀) : wakeUps t = wakeUps t₀ := by
  have hstart : t.startTimer = t₀.startTimer := congrArg Life.startTimer h
  have hup : t.upstream = t₀.upstream := congrArg Life.upstream h
  have hchild : t.child = t₀.child := congrArg Life.child h
  simp only [wakeUps, hstart, hup, hchild]

theorem parentOf_of_life (h : life t = life t₀) : parentOf t = parentOf t₀ := by
  have hdone : t.done = t₀.done := congrArg Life.done h
  simp only [parentOf, hdone]

theorem clientKey_of_life (h : life t = life t₀) : clientKey t = clientKey t₀ := by
  have hclient : t.client = t₀.client := congrArg Life.client h
  have hquestion : t.question = t₀.question := congrArg Life.question h
  simp only [clientKey, hclient, hquestion]

/-- All tasks but one are as they were. -/
theorem Wired.task_lt_put (h : Wired p w) (ht : w.tasks id = some t₀) :
    ∀ i u, Function.update w.tasks id (some t) i = some u → i < w.nextTaskId := by
  intro i u hi
  rcases update_some hi with ⟨rfl, -⟩ | ⟨-, hi⟩
  · exact h.task_lt _ _ ht
  · exact h.task_lt _ _ hi

theorem Wired.tasks_put (h : Wired p w) {p' : Phase} (hok : TaskOk (loose p') id t)
    (hloose : ∀ i, i ≠ id → loose p' ≠ some i → loose p ≠ some i) :
    ∀ i u, Function.update w.tasks id (some t) i = some u → TaskOk (loose p') i u := by
  intro i u hi
  rcases update_some hi with ⟨rfl, rfl⟩ | ⟨hne, hi⟩
  · exact hok
  · have hu := h.tasks i u hi
    exact ⟨fun he => hu.waits (hloose i hne he), hu.client, hu.joiners, hu.child_lt, hu.placed,
      hu.asked⟩

theorem Wired.queries_put (h : Wired p w) (ht : w.tasks id = some t₀) (hasks : Asks t = Asks t₀) :
    ∀ q x, w.pending q = some x → ∀ u, Function.update w.tasks id (some t) x.task = some u →
      Asks u x := by
  intro q x hx u hi
  rcases update_some hi with ⟨hid, rfl⟩ | ⟨-, hi⟩
  · rw [hasks]
    exact h.queries q x hx t₀ (hid ▸ ht)
  · exact h.queries q x hx u hi

theorem wired_join {q : Question} (h : Wired .idle w) (hid : w.inFlight (questionKey q) = some id)
    (ht : w.tasks id = some t) {n : ℕ} {o : Obs} {waiter : Waiter} :
    Wired .idle (({ w with nextCallback := n }.log o).putTask id
      { t with joiners := t.joiners ++ [waiter] }) := by
  have hok := h.tasks id t ht
  obtain ⟨t', ht', hclient, -⟩ := h.client_task hid
  obtain rfl : t' = t := Option.some.inj (ht'.symm.trans ht)
  have hok' : TaskOk none id { t' with joiners := t'.joiners ++ [waiter] } :=
    ⟨hok.waits, hok.client, fun hc => absurd (hclient.symm.trans hc) (by simp), hok.child_lt,
      hok.placed, hok.asked⟩
  exact {
    task_lt := h.task_lt_put ht
    timer_lt := h.timer_lt
    query_lt := h.query_lt
    starts := h.starts.put_left (by rw [ht]; rfl)
    deadlines := h.deadlines.put_left (by rw [ht]; rfl)
    upstreams := h.upstreams.put_left (by rw [ht]; rfl)
    children := (h.children.put_left (by rw [ht]; rfl)).put_right (by rw [ht]; rfl)
    clients := h.clients.put_right (by rw [ht]; rfl)
    tasks := h.tasks_put hok' fun _ _ he => he
    queries := h.queries_put ht rfl
    phase := trivial }

theorem wired_start {tid due : ℕ} {o : Obs} (h : Wired .idle w)
    (htimer : w.timers tid = some ⟨due, .start id⟩) (ht : w.tasks id = some t) :
    Wired (.running id .start) (({ w with timers := without w.timers (some tid) }.log o).putTask id
      { t with startTimer := none }) := by
  obtain ⟨t', ht', hstart⟩ := h.start_task htimer
  obtain rfl : t' = t := Option.some.inj (ht'.symm.trans ht)
  have hok := h.tasks id t' ht
  have hzero := loose_start (hok.waits (by simp [loose])) hstart
  have hok' : TaskOk (some id) id { t' with startTimer := none } :=
    ⟨fun he => absurd rfl he, hok.client, hok.joiners, hok.child_lt, hok.placed, hok.asked⟩
  exact {
    task_lt := h.task_lt_put ht
    timer_lt := fun k x hk => h.timer_lt k x (without_some (o := some tid) hk)
    query_lt := h.query_lt
    starts := h.starts.disconnect ht hstart rfl
    deadlines := (h.deadlines.put_left (by rw [ht]; rfl)).drop_right (some tid)
      (by rintro _ ⟨⟩; rw [htimer]; rfl)
    upstreams := h.upstreams.put_left (by rw [ht]; rfl)
    children := (h.children.put_left (by rw [ht]; rfl)).put_right (by rw [ht]; rfl)
    clients := h.clients.put_right (by rw [ht]; rfl)
    tasks := h.tasks_put hok' fun _ _ _ => by simp [loose]
    queries := h.queries_put ht rfl
    phase := ⟨_, Function.update_self .., hzero⟩ }

theorem wired_deadline {tid due : ℕ} {result : Outcome} (h : Wired .idle w)
    (htimer : w.timers tid = some ⟨due, .deadline id⟩) (ht : w.tasks id = some t) :
    Wired (.finishing id result) ({ w with timers := without w.timers (some tid) }.putTask id
      { t with deadline := none }) := by
  obtain ⟨t', ht', hdeadline⟩ := h.deadline_task htimer
  obtain rfl : t' = t := Option.some.inj (ht'.symm.trans ht)
  have hok := h.tasks id t' ht
  have hok' : TaskOk (some id) id { t' with deadline := none } :=
    ⟨fun he => absurd rfl he, hok.client, hok.joiners, hok.child_lt, hok.placed, hok.asked⟩
  exact {
    task_lt := h.task_lt_put ht
    timer_lt := fun k x hk => h.timer_lt k x (without_some (o := some tid) hk)
    query_lt := h.query_lt
    starts := (h.starts.put_left (by rw [ht]; rfl)).drop_right (some tid)
      (by rintro _ ⟨⟩; rw [htimer]; rfl)
    deadlines := h.deadlines.disconnect ht hdeadline rfl
    upstreams := h.upstreams.put_left (by rw [ht]; rfl)
    children := (h.children.put_left (by rw [ht]; rfl)).put_right (by rw [ht]; rfl)
    clients := h.clients.put_right (by rw [ht]; rfl)
    tasks := h.tasks_put hok' fun _ _ _ => by simp [loose]
    queries := h.queries_put ht rfl
    phase := ⟨_, Function.update_self ..⟩ }

theorem wired_upstream {qid : ℕ} {x : Pending} {wake : Wake} {trace : List Obs} (h : Wired .idle w)
    (hx : w.pending qid = some x) (ht : w.tasks x.task = some t) :
    Wired (.running x.task wake)
      ({ w with pending := without w.pending (some qid), trace }.putTask x.task
        { t with upstream := none }) := by
  obtain ⟨t', ht', hup⟩ := h.pending_task hx
  obtain rfl : t' = t := Option.some.inj (ht'.symm.trans ht)
  have hok := h.tasks x.task t' ht
  have hzero := loose_upstream (hok.waits (by simp [loose])) hup
  have hok' : TaskOk (some x.task) x.task { t' with upstream := none } :=
    ⟨fun he => absurd rfl he, hok.client, hok.joiners, hok.child_lt, fun _ => hok.placed (by simp [hup]),
      by simp⟩
  exact {
    task_lt := h.task_lt_put ht
    timer_lt := h.timer_lt
    query_lt := fun k y hk => h.query_lt k y (without_some (o := some qid) hk)
    starts := h.starts.put_left (by rw [ht]; rfl)
    deadlines := h.deadlines.put_left (by rw [ht]; rfl)
    upstreams := h.upstreams.disconnect ht hup rfl
    children := (h.children.put_left (by rw [ht]; rfl)).put_right (by rw [ht]; rfl)
    clients := h.clients.put_right (by rw [ht]; rfl)
    tasks := h.tasks_put hok' fun _ _ _ => by simp [loose]
    queries := fun q y hy => h.queries_put (t := { t' with upstream := none }) ht rfl q y
      (without_some (o := some qid) hy)
    phase := ⟨_, Function.update_self .., hzero⟩ }

/-- A task that waits for nothing, after some moves. -/
theorem TaskOk.of_life {e : Option ℕ} (h : TaskOk e id t₀) (hlife : life t = life t₀)
    (hzero : wakeUps t₀ = 0) : TaskOk e id t := by
  have hwake := wakeUps_of_life hlife
  have hclient : t.client = t₀.client := congrArg Life.client hlife
  have hjoiners : t.joiners = t₀.joiners := congrArg Life.joiners hlife
  obtain ⟨-, hup, hchild⟩ := wakeUps_eq_zero (hwake.trans hzero)
  refine ⟨fun he => hwake.trans (h.waits he), ?_, ?_, ?_, ?_, ?_⟩
  · rw [hclient, parentOf_of_life hlife]
    exact h.client
  · rw [hclient, hjoiners]
    exact h.joiners
  · simp [hchild]
  · simp [hup, hchild]
  · simp [hup]

/-- No query in flight belongs to a task that waits for nothing. -/
theorem Wired.no_query (h : Wired p w) (ht : w.tasks id = some t₀) (hzero : wakeUps t₀ = 0) {q : ℕ}
    {x : Pending} (hx : w.pending q = some x) : x.task ≠ id := by
  rintro rfl
  obtain ⟨t', ht', hup⟩ := h.pending_task hx
  obtain rfl : t' = t₀ := Option.some.inj (ht'.symm.trans ht)
  rw [(wakeUps_eq_zero hzero).2.1] at hup
  exact absurd hup (by simp)

theorem wired_finish {wake : Wake} {sh : Shared} {result : Outcome} (h : Wired (.running id wake) w)
    (ht : w.tasks id = some t₀) (hlife : life t = life t₀) :
    Wired (.finishing id result) ({ w with shared := sh }.putTask id t) := by
  obtain ⟨t', ht', hzero⟩ := h.phase
  obtain rfl : t' = t₀ := Option.some.inj (ht'.symm.trans ht)
  have hparent := parentOf_of_life hlife
  have hok : TaskOk (loose (.finishing id result)) id t := (h.tasks id t' ht).of_life hlife hzero
  exact {
    task_lt := h.task_lt_put ht
    timer_lt := h.timer_lt
    query_lt := h.query_lt
    starts := h.starts.put_left (by rw [ht]; exact congrArg Life.startTimer hlife)
    deadlines := h.deadlines.put_left (by rw [ht]; exact congrArg Life.deadline hlife)
    upstreams := h.upstreams.put_left (by rw [ht]; exact congrArg Life.upstream hlife)
    children := (h.children.put_left (by rw [ht]; exact congrArg Life.child hlife)).put_right
      (by rw [ht]; exact hparent)
    clients := h.clients.put_right (by rw [ht]; exact clientKey_of_life hlife)
    tasks := h.tasks_put hok fun _ _ he => he
    queries := fun q x hx u hu => by
      have hne := h.no_query ht hzero hx
      exact h.queries q x hx u ((Function.update_of_ne hne ..).symm.trans hu)
    phase := ⟨t, Function.update_self ..⟩ }

theorem wired_send {wake : Wake} {w' : World} {sh : Shared} {address : Address}
    {transport : UpstreamTransport} (h : Wired (.running id wake) w) (ht : w.tasks id = some t₀)
    (hstep : StepOk cfg wake w.shared t₀ (sh, t, .sendQuery address transport))
    (hw : sendQuery cfg env { w with shared := sh } id t address transport = (w', none)) :
    Wired .idle w' := by
  obtain ⟨t', ht', hzero⟩ := h.phase
  obtain rfl : t' = t₀ := Option.some.inj (ht'.symm.trans ht)
  have hlife : life t = life t' := turn_life hstep.ok
  obtain ⟨t₁, -, rfl, hmem, hin⟩ := hstep.ok
  obtain ⟨-, u, x, draws, hu, hx, hasks, rfl⟩ := sendQuery_sent hw
  obtain ⟨hstart, hup, hchild⟩ := wakeUps_eq_zero ((wakeUps_of_life hlife).trans hzero)
  have hok := (h.tasks id t' ht).of_life hlife hzero
  have hfresh : w.pending w.nextQuery = none := by
    cases hq : w.pending w.nextQuery with
    | none => rfl
    | some y => exact absurd (h.query_lt _ _ hq) (Nat.lt_irrefl _)
  have hku : clientKey u = clientKey t := by rw [hu]; rfl
  have hpu : parentOf u = parentOf t := by rw [hu]; rfl
  have hok' : TaskOk (loose .idle) id u := by
    rw [hu]
    refine ⟨fun _ => ?_, hok.client, hok.joiners, hok.child_lt, fun _ => hin, fun _ => hmem⟩
    simp [wakeUps, hstart, hchild]
  exact {
    task_lt := h.task_lt_put ht
    timer_lt := h.timer_lt
    query_lt := fun q y hy => by
      rcases update_some hy with ⟨rfl, -⟩ | ⟨-, hy⟩
      · exact Nat.lt_succ_self _
      · exact Nat.lt_succ_of_lt (h.query_lt q y hy)
    starts := h.starts.put_left (by rw [ht, hu]; exact congrArg Life.startTimer hlife)
    deadlines := h.deadlines.put_left (by rw [ht, hu]; exact congrArg Life.deadline hlife)
    upstreams := h.upstreams.connect (by rw [ht]; exact (congrArg Life.upstream hlife).symm.trans hup)
      (by rw [hfresh]; rfl) (by rw [hu]) (congrArg some hx)
    children := (h.children.put_left (by rw [ht, hu]; exact congrArg Life.child hlife)).put_right
      (by rw [ht, hpu]; exact parentOf_of_life hlife)
    clients := h.clients.put_right (by rw [ht, hku]; exact clientKey_of_life hlife)
    tasks := h.tasks_put hok' fun i hne _ he => hne (Option.some.inj he).symm
    queries := fun q y hy v hv => by
      rcases update_some hy with ⟨-, rfl⟩ | ⟨-, hy⟩
      · rcases update_some hv with ⟨-, rfl⟩ | ⟨hne, -⟩
        · exact hasks
        · exact absurd hx hne
      · have hne := h.no_query ht hzero hy
        exact h.queries q y hy v ((Function.update_of_ne hne ..).symm.trans hv)
    phase := trivial }

theorem Wired.fresh_task (h : Wired p w) : w.tasks w.nextTaskId = none := by
  cases hi : w.tasks w.nextTaskId with
  | none => rfl
  | some u => exact absurd (h.task_lt _ _ hi) (Nat.lt_irrefl _)

theorem Wired.fresh_timer (h : Wired p w) {k : ℕ} (hk : w.nextTimer ≤ k) : w.timers k = none := by
  cases hi : w.timers k with
  | none => rfl
  | some x => exact absurd (h.timer_lt _ _ hi) (Nat.not_lt.mpr hk)

/-- No query in flight belongs to a task that does not exist. -/
theorem Wired.no_query_fresh (h : Wired p w) {q : ℕ} {x : Pending} (hx : w.pending q = some x) :
    x.task ≠ w.nextTaskId := by
  intro hid
  obtain ⟨t', ht', -⟩ := h.pending_task hx
  rw [hid, h.fresh_task] at ht'
  exact absurd ht' (by simp)

theorem wired_child {wake : Wake} {sh : Shared} {q : Question} {ancestry : List Question}
    (h : Wired (.running id wake) w) (ht : w.tasks id = some t₀)
    (hstep : StepOk cfg wake w.shared t₀ (sh, t, .spawn q ancestry)) :
    Wired .idle (spawnChild { w with shared := sh } id t q ancestry) := by
  obtain ⟨t', ht', hzero⟩ := h.phase
  obtain rfl : t' = t₀ := Option.some.inj (ht'.symm.trans ht)
  have hlife : life t = life t' := turn_life hstep.ok
  obtain ⟨t₁, -, -, hin, -⟩ := hstep.ok
  obtain ⟨hstart, hup, hchild⟩ := wakeUps_eq_zero ((wakeUps_of_life hlife).trans hzero)
  have hok := (h.tasks id t' ht).of_life hlife hzero
  have hlt := h.task_lt id t' ht
  have hne : id ≠ w.nextTaskId := Nat.ne_of_lt hlt
  have hparent : parentOf t = parentOf t' := parentOf_of_life hlife
  have hkey : clientKey t = clientKey t' := clientKey_of_life hlife
  let tc : Task :=
    { question := q, qname := q.qname, ancestry, budget := t.budget, started := sh.now
      done := .onChildDone id, startTimer := some w.nextTimer }
  have hold : Function.update w.tasks w.nextTaskId (some tc) id = some t' := by
    rw [Function.update_of_ne hne, ht]
  have hok' : TaskOk (loose .idle) id { t with child := some w.nextTaskId } := by
    refine ⟨fun _ => ?_, hok.client, hok.joiners, ?_, fun _ => hin, by simp [hup]⟩
    · simp [wakeUps, hstart, hup]
    · rintro _ ⟨⟩
      exact hlt
  have hokc : TaskOk (loose .idle) w.nextTaskId tc :=
    ⟨fun _ => rfl, rfl, fun _ => rfl, by simp [tc], by simp [tc], by simp [tc]⟩
  have hchildren : Matching
      (field (Function.update (Function.update w.tasks w.nextTaskId (some tc)) id
        (some { t with child := some w.nextTaskId })) Task.child)
      (field (Function.update (Function.update w.tasks id
        (some { t with child := some w.nextTaskId })) w.nextTaskId (some tc)) parentOf) := by
    have hc : Matching (field w.tasks Task.child) (field w.tasks parentOf) := h.children
    have hleft := hc.put_left (a := w.nextTaskId) (x := tc) (by rw [h.fresh_task]; rfl)
    have hright := hleft.put_right (b := id) (y := { t with child := some w.nextTaskId })
      (by rw [ht]; exact hparent)
    refine hright.connect ?_ ?_ rfl rfl
    · rw [hold]
      exact (congrArg Life.child hlife).symm.trans hchild
    · rw [Function.update_of_ne (Ne.symm hne), h.fresh_task]
      rfl
  rw [← Function.update_comm hne.symm (some tc) _ w.tasks] at hchildren
  exact {
    task_lt := fun i u hi => by
      rcases update_some hi with ⟨rfl, -⟩ | ⟨-, hi⟩
      · exact Nat.lt_succ_of_lt hlt
      rcases update_some hi with ⟨rfl, -⟩ | ⟨-, hi⟩
      · exact Nat.lt_succ_self _
      · exact Nat.lt_succ_of_lt (h.task_lt _ _ hi)
    timer_lt := fun k x hk => by
      rcases update_some hk with ⟨rfl, -⟩ | ⟨-, hk⟩
      · exact Nat.lt_succ_self _
      · exact Nat.lt_succ_of_lt (h.timer_lt _ _ hk)
    query_lt := h.query_lt
    starts := (h.starts.connect (by rw [h.fresh_task]; rfl) (by rw [h.fresh_timer le_rfl]; rfl) rfl
      rfl).put_left (by rw [hold]; exact congrArg Life.startTimer hlife)
    deadlines := ((h.deadlines.put_left (by rw [h.fresh_task]; rfl)).put_left
      (by rw [hold]; exact congrArg Life.deadline hlife)).put_right (by rw [h.fresh_timer le_rfl]; rfl)
    upstreams := (h.upstreams.put_left (by rw [h.fresh_task]; rfl)).put_left
      (by rw [hold]; exact congrArg Life.upstream hlife)
    children := hchildren
    clients := (h.clients.put_right (by rw [h.fresh_task]; rfl)).put_right
      (by rw [hold]; exact hkey)
    tasks := fun i u hi => by
      rcases update_some hi with ⟨rfl, rfl⟩ | ⟨hne', hi⟩
      · exact hok'
      rcases update_some hi with ⟨rfl, rfl⟩ | ⟨-, hi⟩
      · exact hokc
      · have hu := h.tasks i u hi
        exact ⟨fun _ => hu.waits fun he => hne' (Option.some.inj he).symm, hu.client, hu.joiners,
          hu.child_lt, hu.placed, hu.asked⟩
    queries := fun k y hy v hv => by
      have hy1 := h.no_query ht hzero hy
      have hy2 := h.no_query_fresh hy
      exact h.queries k y hy v (((Function.update_of_ne hy1 ..).trans
        (Function.update_of_ne hy2 ..)).symm.trans hv)
    phase := trivial }

theorem wired_client {q : Question} {cb : ℕ} (h : Wired .idle w)
    (hid : w.inFlight (questionKey q) = none) : Wired .idle (spawnClient cfg w q cb) := by
  rw [spawnClient_eq]
  have hfresh := h.fresh_task
  have htimer := h.fresh_timer le_rfl
  have htimer' : Function.update w.timers w.nextTimer
      (some ⟨w.shared.now + 0, .start w.nextTaskId⟩) (w.nextTimer + 1) = none := by
    rw [Function.update_of_ne (by omega), h.fresh_timer (by omega)]
  let tc : Task :=
    { question := q, qname := q.qname, budget := w.nextTaskId, started := w.shared.now
      done := .callback cb, startTimer := some w.nextTimer, client := true
      deadline := some (w.nextTimer + 1) }
  have hok : TaskOk (loose .idle) w.nextTaskId tc :=
    ⟨fun _ => rfl, rfl, by simp [tc], by simp [tc], by simp [tc], by simp [tc]⟩
  have hclients : Matching (Function.update w.inFlight (questionKey q) (some w.nextTaskId))
      (field (Function.update w.tasks w.nextTaskId (some tc)) clientKey) := by
    rw [field_update]
    exact h.clients.add hid (by unfold field; rw [hfresh]; rfl)
  exact {
    task_lt := fun i u hi => by
      rcases update_some hi with ⟨rfl, -⟩ | ⟨-, hi⟩
      · exact Nat.lt_succ_self _
      · exact Nat.lt_succ_of_lt (h.task_lt _ _ hi)
    timer_lt := fun k x hk => by
      rcases update_some hk with ⟨rfl, -⟩ | ⟨-, hk⟩
      · exact Nat.lt_succ_self _
      rcases update_some hk with ⟨rfl, -⟩ | ⟨-, hk⟩
      · show _ < w.nextTimer + 1 + 1
        omega
      · exact Nat.lt_succ_of_lt (Nat.lt_succ_of_lt (h.timer_lt _ _ hk))
    query_lt := h.query_lt
    starts := (h.starts.connect (by rw [hfresh]; rfl) (by rw [htimer]; rfl) rfl rfl).put_right
      (by rw [htimer']; rfl)
    deadlines := (h.deadlines.put_right (by rw [htimer]; rfl)).connect (by rw [hfresh]; rfl)
      (by rw [htimer']; rfl) rfl rfl
    upstreams := h.upstreams.put_left (by rw [hfresh]; rfl)
    children := (h.children.put_left (by rw [hfresh]; rfl)).put_right (by rw [hfresh]; rfl)
    clients := hclients
    tasks := h.tasks_put hok fun _ _ he => he
    queries := fun k y hy v hv => by
      have hne := h.no_query_fresh hy
      exact h.queries k y hy v ((Function.update_of_ne hne ..).symm.trans hv)
    phase := trivial }

/-! ### A task that goes -/

theorem startOf_eq_none {x : Timer} (h : deadlineOf x = some id) : startOf x = none := by
  obtain ⟨due, action⟩ := x
  cases action with
  | start _ => simp [deadlineOf] at h
  | deadline _ => rfl

theorem deadlineOf_eq_none {x : Timer} (h : startOf x = some id) : deadlineOf x = none := by
  obtain ⟨due, action⟩ := x
  cases action with
  | start _ => rfl
  | deadline _ => simp [startOf] at h

theorem starts_remove (h : Wired p w) (ht : w.tasks id = some t) :
    Matching (field (remove w id t).tasks Task.startTimer) (field (remove w id t).timers startOf) := by
  refine (h.starts.erase ht).drop_right t.deadline fun k hk => ?_
  obtain ⟨x, hx, hd⟩ := h.deadlines.entry ht hk
  refine Option.bind_eq_none_iff.mpr fun y hy => ?_
  obtain rfl : y = x := Option.some.inj ((without_some hy).symm.trans hx)
  exact startOf_eq_none hd

theorem deadlines_remove (h : Wired p w) (ht : w.tasks id = some t) :
    Matching (field (remove w id t).tasks Task.deadline)
      (field (remove w id t).timers deadlineOf) := by
  refine (h.deadlines.drop_right t.startTimer fun k hk => ?_).erase ht
  obtain ⟨x, hx, hs⟩ := h.starts.entry ht hk
  rw [hx]
  exact deadlineOf_eq_none hs

theorem clients_remove (h : Wired p w) (ht : w.tasks id = some t) :
    Matching (remove w id t).inFlight (field (remove w id t).tasks clientKey) := by
  have herase := h.clients.symm.remove_left id
  have hkey : field w.tasks clientKey id = clientKey t := by simp [field, ht]
  rw [hkey] at herase
  have hflight : (remove w id t).inFlight = without w.inFlight (clientKey t) := by
    by_cases hclient : t.client = true
    · have hin : w.inFlight (questionKey t.question) = some id :=
        (h.clients _ id).mpr (by rw [hkey]; simp [clientKey, hclient])
      simp [remove, clientKey, hclient, hin, without]
    · simp [remove, clientKey, hclient, without]
  rw [hflight]
  show Matching _ (field (Function.update w.tasks id none) clientKey)
  rw [field_update]
  exact herase.symm

/-- What is left of the invariant when a task is removed, whatever the phase. -/
theorem Wired.remove (h : Wired p w) (ht : w.tasks id = some t) {p' : Phase}
    (hchildren : Matching (childOf p' (Function.update w.tasks id none))
      (waiterOf p' (Function.update w.tasks id none)))
    (hloose : ∀ i, i ≠ id → loose p' ≠ some i → loose p ≠ some i)
    (hphase : PhaseOk (Function.update w.tasks id none) p') : Wired p' (remove w id t) where
  task_lt i u hi := h.task_lt i u (update_none hi).2
  timer_lt k x hk := h.timer_lt k x (without_some (without_some hk))
  query_lt q x hq := h.query_lt q x (without_some hq)
  starts := starts_remove h ht
  deadlines := deadlines_remove h ht
  upstreams := h.upstreams.erase ht
  children := hchildren
  clients := clients_remove h ht
  tasks i u hi := by
    obtain ⟨hne, hi⟩ := update_none hi
    have hu := h.tasks i u hi
    exact ⟨fun he => hu.waits (hloose i hne he), hu.client, hu.joiners, hu.child_lt, hu.placed,
      hu.asked⟩
  queries q x hq u hu := h.queries q x (without_some hq) u (update_none hu).2
  phase := hphase

theorem wired_drop {result : Outcome} (h : Wired (.finishing id result) w)
    (ht : w.tasks id = some t) : Wired (.releasing t.child id t result) (Machine.remove w id t) := by
  have hok := h.tasks id t ht
  have hc : Matching (field w.tasks Task.child) (field w.tasks parentOf) := h.children
  have hparents : ∀ parent ∈ parentOf t, parent < id ∧ ∃ tp, w.tasks parent = some tp ∧
      tp.child = some id := by
    intro parent hparent
    obtain ⟨tp, htp, hchild⟩ := hc.symm.entry ht hparent
    exact ⟨(h.tasks parent tp htp).child_lt id hchild, tp, htp, hchild⟩
  have hself : parentOf t ≠ some id := fun he => absurd (hparents id he).1 (Nat.lt_irrefl _)
  refine h.remove ht ?_ (fun i hne _ he => hne (Option.some.inj he).symm) ?_
  · -- first the parent's pointer, then the pointer to the sub-query
    have hp : Matching (without (field w.tasks Task.child) (parentOf t))
        (Function.update (field w.tasks parentOf) id none) := by
      have := hc.symm.remove_left id
      rw [show field w.tasks parentOf id = parentOf t by simp [field, ht]] at this
      exact this.symm
    have hboth := hp.remove_left id
    rw [without_apply hself, show field w.tasks Task.child id = t.child by simp [field, ht],
      update_without] at hboth
    unfold childOf waiterOf
    rw [field_update, field_update]
    exact hboth
  · refine ⟨Function.update_self .., hok.client, hok.joiners, fun c hcc => ?_, fun parent hparent => ?_⟩
    · obtain ⟨tc, htc, hpc⟩ := hc.entry ht hcc
      have hlt := hok.child_lt c hcc
      exact ⟨hlt, tc, (Function.update_of_ne (by omega) ..).trans htc, by simp [hpc]⟩
    · obtain ⟨hlt, tp, htp, hchild⟩ := hparents parent hparent
      exact ⟨hlt, tp, (Function.update_of_ne (by omega) ..).trans htp, hchild⟩

theorem wired_dropChild {c : ℕ} {tc : Task} {result : Outcome}
    (h : Wired (.releasing (some c) id t result) w) (htc : w.tasks c = some tc) :
    Wired (.releasing tc.child id t result) (Machine.remove w c tc) := by
  have hok := h.tasks c tc htc
  obtain ⟨hgone, hclient, hjoiners, horphan, hparents⟩ := h.phase
  obtain ⟨hlt, -⟩ := horphan c rfl
  have hne : parentOf t ≠ some c := fun he => by
    have := (hparents c he).1
    omega
  have hchildren : Matching (childOf (.releasing tc.child id t result) (Function.update w.tasks c none))
      (waiterOf (.releasing tc.child id t result) (Function.update w.tasks c none)) := by
    have hboth := h.children.remove_left c
    unfold childOf waiterOf at hboth ⊢
    dsimp only [bereft, orphanOf] at hboth ⊢
    rw [without_apply hne, show field w.tasks Task.child c = tc.child by simp [field, htc],
      update_without] at hboth
    rw [field_update, field_update]
    exact hboth
  refine h.remove htc hchildren (fun i _ he => he) ?_
  refine ⟨?_, hclient, hjoiners, fun d hd => ?_, fun parent hparent => ?_⟩
  · exact (Function.update_of_ne (by omega) ..).trans hgone
  · have hcd := hok.child_lt d hd
    have hwaiter : waiterOf (.releasing (some c) id t result) w.tasks d = some c := by
      refine (h.children c d).mp ?_
      unfold childOf
      rw [without_apply (by exact hne)]
      simpa [field, htc] using hd
    have hfield : field w.tasks parentOf d = some c := without_some hwaiter
    obtain ⟨td, htd, hpd⟩ := Option.bind_eq_some_iff.mp hfield
    exact ⟨by omega, td, (Function.update_of_ne (by omega) ..).trans htd, by simp [hpd]⟩
  · obtain ⟨hplt, tp, htp, hchild⟩ := hparents parent hparent
    exact ⟨hplt, tp, (Function.update_of_ne (by omega) ..).trans htp, hchild⟩

theorem wired_answer {cb : ℕ} {result : Outcome} {calls : List (ℕ × Outcome)} {o : Obs}
    (h : Wired (.releasing none id t result) w) (hdone : t.done = .callback cb) :
    Wired .idle { w.log o with calls } := by
  have hparent : parentOf t = none := by simp [parentOf, hdone]
  exact {
    task_lt := h.task_lt
    timer_lt := h.timer_lt
    query_lt := h.query_lt
    starts := h.starts
    deadlines := h.deadlines
    upstreams := h.upstreams
    children := by
      have hc := h.children
      unfold childOf waiterOf at hc ⊢
      dsimp only [bereft, orphanOf] at hc ⊢
      rwa [hparent] at hc
    clients := h.clients
    tasks := h.tasks
    queries := h.queries
    phase := trivial }

theorem wired_wakeParent {parent : ℕ} {tp : Task} {result : Outcome} {o o' : Obs}
    (h : Wired (.releasing none id t result) w) (hdone : t.done = .onChildDone parent)
    (htp : w.tasks parent = some tp) :
    Wired (.running parent .child)
      (((w.log o).log o').putTask parent { tp with child := none }) := by
  have hparent : parentOf t = some parent := by simp [parentOf, hdone]
  obtain ⟨-, -, -, -, hparents⟩ := h.phase
  obtain ⟨-, tp', htp', hchild⟩ := hparents parent hparent
  obtain rfl : tp' = tp := Option.some.inj (htp'.symm.trans htp)
  have hok := h.tasks parent tp' htp
  have hzero := loose_child (hok.waits (by simp [loose])) hchild
  have hin : InZone tp' := hok.placed (.inr (by simp [hchild]))
  have hok' : TaskOk (loose (.running parent .child)) parent { tp' with child := none } :=
    ⟨fun he => absurd rfl he, hok.client, hok.joiners, by simp, fun _ => hin, hok.asked⟩
  have hchildren : Matching
      (field (Function.update w.tasks parent (some { tp' with child := none })) Task.child)
      (field w.tasks parentOf) := by
    have hc := h.children
    unfold childOf waiterOf at hc
    dsimp only [bereft, orphanOf] at hc
    rw [hparent] at hc
    rw [field_update]
    exact hc
  exact {
    task_lt := h.task_lt_put htp
    timer_lt := h.timer_lt
    query_lt := h.query_lt
    starts := h.starts.put_left (by rw [htp]; rfl)
    deadlines := h.deadlines.put_left (by rw [htp]; rfl)
    upstreams := h.upstreams.put_left (by rw [htp]; rfl)
    children := hchildren.put_right (by rw [htp]; rfl)
    clients := h.clients.put_right (by rw [htp]; rfl)
    tasks := h.tasks_put hok' fun _ _ _ => by simp [loose]
    queries := h.queries_put htp rfl
    phase := ⟨_, Function.update_self .., hzero⟩ }

/-- **Every change keeps the wiring.** -/
theorem wired_micro {a b : Phase × World} (hab : Micro cfg env a b) (h : Wired a.1 a.2) :
    Wired b.1 b.2 := by
  cases hab with
  | join hid ht => exact wired_join h hid ht
  | client hid =>
    exact wired_client (h.congr rfl rfl rfl rfl rfl rfl rfl) hid
  | call _ | shared _ => exact h.congr rfl rfl rfl rfl rfl rfl rfl
  | start htimer ht => exact wired_start h htimer ht
  | deadline htimer ht => exact wired_deadline h htimer ht
  | upstream hp _ ht => exact wired_upstream h hp ht
  | send ht hstep hw => exact wired_send h ht hstep hw
  | spent ht hstep hw =>
    obtain ⟨rfl, -⟩ := sendQuery_over hw
    exact wired_finish h ht (turn_life hstep.ok)
  | child ht hstep => exact wired_child h ht hstep
  | done ht hstep => exact wired_finish h ht (turn_life hstep.ok)
  | drop ht => exact wired_drop h ht
  | dropChild hc => exact wired_dropChild h hc
  | answer hdone => exact wired_answer h hdone
  | wakeParent hdone hp => exact wired_wakeParent h hdone hp

end DNSentinel.Resolver.Wiring
