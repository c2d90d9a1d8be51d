import DNSentinel.Resolver.Events

/-! # What a resolution may use

A client's resolution and all its sub-queries share one budget of upstream queries; sub-queries nest
to a fixed depth; and each visit to a zone starts a limited number of them. The counts are made on
the trace, and compared with the counters the source keeps. -/

namespace DNSentinel.Resolver.Limits

open DNSentinel.Types Lib.Pairs Lib.Runs Store.Model Selection Data Resolver.Core Machine Turns
open Effects Phases Wiring Events

variable {cfg : Config} {env : Random} {w w' : World} {p : Phase} {a b : Phase × World}

/-! ### Counting -/

def sentOf : Obs → Option ℕ
  | .sent _ _ budget _ _ _ => some budget
  | _ => none

/-- The budgets of the queries sent. -/
def sends (trace : List Obs) : List ℕ := trace.filterMap sentOf

def wakeOf : Obs → Option ℕ
  | .wake _ budget => some budget
  | _ => none

/-- The budgets of the tasks woken. -/
def wakes (trace : List Obs) : List ℕ := trace.filterMap wakeOf

def spawnOf : Obs → Option (ℕ × ℕ)
  | .spawned parent visit _ => some (parent, visit)
  | _ => none

/-- The tasks that started sub-queries, and during which visit. -/
def spawns (trace : List Obs) : List (ℕ × ℕ) := trace.filterMap spawnOf

theorem filterMap_completion {α : Type} {f : Obs → Option α} {t : Task} {x : Pending}
    {result : Except UpstreamError Message} {trace : List Obs}
    (haccepted : ∀ id q m, f (.accepted id q m) = none) (halert : ∀ q s n, f (.alert q s n) = none)
    (hmismatch : ∀ id v s, f (.mismatch id v s) = none) :
    (completion cfg t x result ++ trace).filterMap f = trace.filterMap f := by
  unfold completion
  split
  · exact List.filterMap_cons_none (haccepted ..)
  · exact List.filterMap_cons_none (halert ..)
  · exact List.filterMap_cons_none (hmismatch ..)
  · rfl

theorem sends_upstream {t : Task} {x : Pending} {result : Except UpstreamError Message} {id c : ℕ}
    {trace : List Obs} :
    sends (completion cfg t x result ++ .wake id c :: trace) = sends trace :=
  filterMap_completion (fun _ _ _ => rfl) (fun _ _ _ => rfl) fun _ _ _ => rfl

theorem wakes_upstream {t : Task} {x : Pending} {result : Except UpstreamError Message} {id c : ℕ}
    {trace : List Obs} :
    wakes (completion cfg t x result ++ .wake id c :: trace) = c :: wakes trace :=
  filterMap_completion (fun _ _ _ => rfl) (fun _ _ _ => rfl) fun _ _ _ => rfl

theorem spawns_upstream {t : Task} {x : Pending} {result : Except UpstreamError Message} {id c : ℕ}
    {trace : List Obs} :
    spawns (completion cfg t x result ++ .wake id c :: trace) = spawns trace :=
  filterMap_completion (fun _ _ _ => rfl) (fun _ _ _ => rfl) fun _ _ _ => rfl

/-! ### Upstream queries -/

/-- A change sends no query, or one for a task whose budget is not used up; a new client's budget is
unused. -/
theorem sends_micro (hab : Micro cfg env a b) :
    (sends b.2.trace = sends a.2.trace ∧ ∀ c, b.2.budgets c = a.2.budgets c ∨
      c = a.2.nextTaskId ∧ b.2.budgets c = 0) ∨
    ∃ i t, a.2.tasks i = some t ∧ a.2.budgets t.budget < cfg.maxUpstreamQueries ∧
      sends b.2.trace = t.budget :: sends a.2.trace ∧
      b.2.budgets = Function.update a.2.budgets t.budget (a.2.budgets t.budget + 1) := by
  cases hab with
  | @client w q _ =>
    refine .inl ?_
    rw [spawnClient_eq]
    refine ⟨rfl, fun c => ?_⟩
    by_cases hc : c = w.nextTaskId
    · exact .inr ⟨hc, by rw [hc]; exact Function.update_self ..⟩
    · exact .inl (Function.update_of_ne hc ..)
  | upstream _ _ _ => exact .inl ⟨sends_upstream, fun _ => .inl rfl⟩
  | @send w _ id _ t₀ t _ _ _ ht hstep hsend =>
    obtain ⟨hbudget, u, x, draws, -, -, -, rfl⟩ := sendQuery_sent hsend
    have hsame : t.budget = t₀.budget := congrArg Life.budget (turn_life hstep.ok)
    rw [hsame] at hbudget
    refine .inr ⟨id, t₀, ht, hbudget, ?_, ?_⟩
    · rw [← hsame]
      rfl
    · rw [← hsame]
  | spent _ _ hsend =>
    obtain ⟨rfl, -⟩ := sendQuery_over hsend
    exact .inl ⟨rfl, fun _ => .inl rfl⟩
  | _ => exact .inl ⟨rfl, fun _ => .inl rfl⟩

/-- `Budget::queries` counts the queries sent, and stays within its limit. -/
structure QueriesOk (cfg : Config) (s : Phase × World) : Prop where
  tasks : ∀ i t, s.2.tasks i = some t → t.budget < s.2.nextTaskId
  fresh : ∀ c, s.2.nextTaskId ≤ c → s.2.budgets c = 0
  counted : ∀ c, (sends s.2.trace).count c = (s.2.budgets c).toNat
  within : ∀ c, s.2.budgets c ≤ cfg.maxUpstreamQueries

theorem budget_micro (hab : Micro cfg env a b)
    (h : ∀ i t, a.2.tasks i = some t → t.budget < a.2.nextTaskId) :
    ∀ i t, b.2.tasks i = some t → t.budget < b.2.nextTaskId := by
  refine tasks_micro (P := fun _ t => t.budget < b.2.nextTaskId) hab ?_ ?_ ?_ ?_ ?_
  · intro _ t t' ht hf
    simp only [findings, Prod.mk.injEq] at hf
    rwa [hf.2.2.2.2.1]
  · intro t hf _ hlt
    simp only [findings, Prod.mk.injEq] at hf
    rwa [hf.2.2.2.2.1]
  · intro wake t₀ sh t q ancestry hstep _ ht₀ u hu
    have hsame : t.budget = t₀.budget := congrArg Life.budget (turn_life hstep.ok)
    simp only [findings, Prod.mk.injEq] at hu
    rwa [hu.2.2.2.2.1, hsame]
  · intro _ wake t turn hstep ht
    have hsame : turn.2.1.budget = t.budget := congrArg Life.budget (turn_life hstep.ok)
    rwa [hsame]
  · exact fun i t ht => (h i t ht).trans_le (nextTaskId_micro hab)

theorem queries_micro (hab : Micro cfg env a b) (h : QueriesOk cfg a) : QueriesOk cfg b := by
  have hnext := nextTaskId_micro hab
  rcases sends_micro hab with ⟨hsends, hbudgets⟩ | ⟨i, t, ht, hlt, hsends, hbudgets⟩
  · have hsame : b.2.budgets = a.2.budgets := by
      funext c
      rcases hbudgets c with hc | ⟨hc, hzero⟩
      · exact hc
      · rw [hzero, h.fresh c hc.ge]
    refine ⟨budget_micro hab h.tasks, ?_, ?_, ?_⟩ <;> rw [hsame]
    · exact fun c hc => h.fresh c (hnext.trans hc)
    · rw [hsends]
      exact h.counted
    · exact h.within
  · have hroom : (a.2.budgets t.budget).toNat < cfg.maxUpstreamQueries.toNat := hlt
    have hmax : cfg.maxUpstreamQueries.toNat < 2 ^ 32 := cfg.maxUpstreamQueries.toNat_lt
    have hadd : (a.2.budgets t.budget + 1).toNat = (a.2.budgets t.budget).toNat + 1 := by
      rw [UInt32.toNat_add]
      exact Nat.mod_eq_of_lt (by simp; omega)
    refine ⟨budget_micro hab h.tasks, ?_, ?_, ?_⟩ <;> rw [hbudgets]
    · intro c hc
      have hne : c ≠ t.budget := by
        have := h.tasks i t ht
        omega
      rw [Function.update_of_ne hne]
      exact h.fresh c (hnext.trans hc)
    · intro c
      rw [hsends, List.count_cons, h.counted c]
      by_cases hc : c = t.budget
      · rw [hc, Function.update_self, hadd]
        simp
      · rw [Function.update_of_ne hc]
        simp [Ne.symm hc]
    · intro c
      by_cases hc : c = t.budget
      · rw [hc, Function.update_self, UInt32.le_iff_toNat_le, hadd]
        omega
      · rw [Function.update_of_ne hc]
        exact h.within c

/-! ### Nesting -/

/-- A client's task has a budget of its own and no ancestors; no task has too many. -/
structure RankOk (i : ℕ) (t : Task) : Prop where
  client : t.client = true → t.budget = i ∧ t.ancestry = []
  depth : t.ancestry.length ≤ kMaxSubqueryDepth

theorem rank_micro (hab : Micro cfg env a b) (h : ∀ i t, a.2.tasks i = some t → RankOk i t) :
    ∀ i t, b.2.tasks i = some t → RankOk i t := by
  refine tasks_micro hab ?_ ?_ ?_ ?_ h
  · intro i t t' ht hf
    simp only [findings, Prod.mk.injEq] at hf
    obtain ⟨-, -, -, hancestry, hbudget, -, -, hclient, -⟩ := hf
    refine ⟨?_, ?_⟩
    · rw [hclient, hbudget, hancestry]
      exact ht.client
    · rw [hancestry]
      exact ht.depth
  · intro t hf _ _
    simp only [findings, Prod.mk.injEq] at hf
    obtain ⟨-, -, -, hancestry, hbudget, -⟩ := hf
    refine ⟨fun _ => ⟨hbudget, hancestry⟩, ?_⟩
    rw [hancestry]
    exact Nat.zero_le _
  · intro wake t₀ sh t q ancestry hstep i ht₀ u hu
    obtain ⟨v, -, -, -, -, hdepth, hmore, -⟩ := hstep.ok
    simp only [findings, Prod.mk.injEq] at hu
    obtain ⟨-, -, -, hancestry, -, -, -, hclient, -⟩ := hu
    refine ⟨fun hc => absurd (hclient.symm.trans hc) (by decide), ?_⟩
    rw [hancestry, hmore, List.length_append]
    exact hdepth
  · intro i wake t turn hstep ht
    have hlife := turn_life hstep.ok
    have hclient : turn.2.1.client = t.client := congrArg Life.client hlife
    have hbudget : turn.2.1.budget = t.budget := congrArg Life.budget hlife
    have hancestry : turn.2.1.ancestry = t.ancestry := congrArg Life.ancestry hlife
    refine ⟨?_, ?_⟩
    · rw [hclient, hbudget, hancestry]
      exact ht.client
    · rw [hancestry]
      exact ht.depth

/-- A sub-query shares the budget of the task that waits for it, and is nested one deeper. -/
def Families (tasks : ℕ → Option Task) : Prop :=
  ∀ i t c tc, tasks i = some t → t.child = some c → tasks c = some tc →
    tc.budget = t.budget ∧ tc.ancestry.length = t.ancestry.length + 1

/-- An entry of a table in which one has been replaced by a similar one. -/
theorem similar_of_update {tasks : ℕ → Option Task} {id i : ℕ} {t t₀ u : Task}
    (ht : tasks id = some t₀) (hbudget : t.budget = t₀.budget) (hancestry : t.ancestry = t₀.ancestry)
    (hchild : ∀ c, t.child = some c → t₀.child = some c)
    (hu : Function.update tasks id (some t) i = some u) :
    ∃ u₀, tasks i = some u₀ ∧ u.budget = u₀.budget ∧ u.ancestry = u₀.ancestry ∧
      ∀ c, u.child = some c → u₀.child = some c := by
  rcases update_some hu with ⟨rfl, rfl⟩ | ⟨-, hu⟩
  · exact ⟨t₀, ht, hbudget, hancestry, hchild⟩
  · exact ⟨u, hu, rfl, rfl, fun _ hc => hc⟩

theorem Families.put {tasks : ℕ → Option Task} {id : ℕ} {t t₀ : Task} (h : Families tasks)
    (ht : tasks id = some t₀) (hbudget : t.budget = t₀.budget)
    (hancestry : t.ancestry = t₀.ancestry) (hchild : ∀ c, t.child = some c → t₀.child = some c) :
    Families (Function.update tasks id (some t)) := by
  intro i u c uc hi huc hc
  obtain ⟨u₀, hi₀, hub, hua, hkeep⟩ := similar_of_update ht hbudget hancestry hchild hi
  obtain ⟨v₀, hc₀, hvb, hva, -⟩ := similar_of_update ht hbudget hancestry hchild hc
  rw [hub, hua, hvb, hva]
  exact h i u₀ c v₀ hi₀ (hkeep c huc) hc₀

theorem Families.drop {tasks : ℕ → Option Task} (h : Families tasks) (id : ℕ) :
    Families (Function.update tasks id none) :=
  fun i t c tc hi htc hc => h i t c tc (update_none hi).2 htc (update_none hc).2

/-- Nobody waits for a task that is still to come. -/
theorem child_lt_next (hw : Wired p w) (hbereft : bereft p = none) (horphan : orphanOf p = none)
    {i c : ℕ} {t : Task} (ht : w.tasks i = some t) (hc : t.child = some c) : c < w.nextTaskId := by
  have hchildren : Matching (field w.tasks Task.child) (field w.tasks parentOf) := by
    have h := hw.children
    unfold childOf waiterOf at h
    rwa [hbereft, horphan] at h
  obtain ⟨tc, htc, -⟩ := hchildren.entry ht hc
  exact hw.task_lt c tc htc

theorem families_new (hw : Wired p w) (hbereft : bereft p = none) (horphan : orphanOf p = none)
    (h : Families w.tasks) {new : Task} (hnew : new.child = none) :
    Families (Function.update w.tasks w.nextTaskId (some new)) := by
  intro i u c uc hi huc hc
  rcases update_some hi with ⟨-, rfl⟩ | ⟨-, hi⟩
  · rw [hnew] at huc
    exact absurd huc (by simp)
  · have hlt := child_lt_next hw hbereft horphan hi huc
    rw [Function.update_of_ne hlt.ne] at hc
    exact h i u c uc hi huc hc

theorem families_child {id : ℕ} {wake : Wake} {t t₀ new : Task} (hw : Wired (.running id wake) w)
    (h : Families w.tasks) (ht : w.tasks id = some t₀) (hbudget : t.budget = t₀.budget)
    (hancestry : t.ancestry = t₀.ancestry) (hnew : new.child = none)
    (hnewb : new.budget = t.budget) (hnewa : new.ancestry.length = t.ancestry.length + 1) :
    Families (Function.update (Function.update w.tasks w.nextTaskId (some new)) id
      (some { t with child := some w.nextTaskId })) := by
  have hid : id < w.nextTaskId := hw.task_lt id t₀ ht
  have hold := families_new hw rfl rfl h hnew
  have ht' : Function.update w.tasks w.nextTaskId (some new) id = some t₀ := by
    rwa [Function.update_of_ne hid.ne]
  intro i u c uc hi huc hc
  rcases update_some hi with ⟨-, rfl⟩ | ⟨-, hu⟩
  · obtain rfl := Option.some.inj huc
    rw [Function.update_of_ne hid.ne', Function.update_self] at hc
    obtain rfl := Option.some.inj hc
    exact ⟨hnewb, hnewa⟩
  · rcases update_some hc with ⟨rfl, rfl⟩ | ⟨-, hc⟩
    · obtain ⟨hb, ha⟩ := hold i u c t₀ hu huc ht'
      exact ⟨hbudget.trans hb, by rw [← ha, ← hancestry]⟩
    · exact hold i u c uc hu huc hc

theorem families_micro (hw : Wired a.1 a.2) (hab : Micro cfg env a b) (h : Families a.2.tasks) :
    Families b.2.tasks := by
  have hturn : ∀ {id : ℕ} {wake : Wake} {t₀ t : Task} {turn : Turn}, a.2.tasks id = some t₀ →
      StepOk cfg wake a.2.shared t₀ turn → t.budget = turn.2.1.budget →
      t.ancestry = turn.2.1.ancestry → t.child = turn.2.1.child →
      Families (Function.update a.2.tasks id (some t)) := by
    intro id wake t₀ t turn ht hstep hb ha hc
    have hlife := turn_life hstep.ok
    refine h.put ht (hb.trans (congrArg Life.budget hlife)) (ha.trans (congrArg Life.ancestry hlife)) ?_
    rw [hc, show turn.2.1.child = t₀.child from congrArg Life.child hlife]
    exact fun _ hc => hc
  cases hab with
  | join _ ht | start _ ht | deadline _ ht | upstream _ _ ht =>
    exact h.put ht rfl rfl fun _ hc => hc
  | client _ =>
    rw [spawnClient_eq]
    exact families_new hw rfl rfl h rfl
  | call _ => exact h
  | shared _ => exact h
  | send ht hstep hsend =>
    obtain ⟨-, u, x, draws, hu, -, -, rfl⟩ := sendQuery_sent hsend
    exact hturn ht hstep (by rw [hu]) (by rw [hu]) (by rw [hu])
  | spent ht hstep hsend =>
    obtain ⟨rfl, -⟩ := sendQuery_over hsend
    exact hturn ht hstep rfl rfl rfl
  | @child w id wake t₀ t sh q ancestry ht hstep =>
    obtain ⟨v, hmoves, hv, -, -, -, hmore, -⟩ := hstep.ok
    have hlife := turn_life hstep.ok
    have hsame : t = { v with gluelessLookups := v.gluelessLookups + 1 } := hv
    have hlength : ancestry.length = t.ancestry.length + 1 := by
      rw [hmore, List.length_append, hsame]
      rfl
    exact families_child (w := w) hw h ht (congrArg Life.budget hlife)
      (congrArg Life.ancestry hlife) rfl rfl hlength
  | done ht hstep => exact hturn ht hstep rfl rfl rfl
  | drop _ => exact h.drop _
  | dropChild _ => exact h.drop _
  | answer _ => exact h
  | wakeParent _ hp => exact h.put hp rfl rfl fun _ hc => absurd hc (by simp)

/-! ### Sub-queries of a zone visit -/

/-- The sub-queries a task has counted for its current visit are those it has started in it, and it
has started none in later visits. -/
def VisitOk (started : List (ℕ × ℕ)) (i : ℕ) (t : Task) : Prop :=
  started.count (i, t.visits) = t.gluelessLookups.toNat ∧
    ∀ v, t.visits < v → started.count (i, v) = 0

theorem VisitOk.of_lookups {started : List (ℕ × ℕ)} {i : ℕ} {t t' : Task} (h : VisitOk started i t)
    (hl : Lookups t t') : VisitOk started i t' := by
  rcases hl with ⟨hv, hg⟩ | ⟨hv, hg⟩
  · unfold VisitOk
    rw [hv, hg]
    exact h
  · refine ⟨?_, fun v hlt => h.2 v (hv.trans hlt)⟩
    rw [h.2 _ hv, hg]
    rfl

structure VisitsOk (cfg : Config) (s : Phase × World) : Prop where
  tasks : ∀ i t, s.2.tasks i = some t → VisitOk (spawns s.2.trace) i t
  fresh : ∀ i, s.2.nextTaskId ≤ i → ∀ v, (spawns s.2.trace).count (i, v) = 0
  within : ∀ i v, (spawns s.2.trace).count (i, v) ≤ cfg.maxGluelessNs.toNat

theorem VisitsOk.put (h : VisitsOk cfg (p, w)) {id : ℕ} {t₀ t : Task} (ht : w.tasks id = some t₀)
    {p' : Phase} (htasks : w'.tasks = Function.update w.tasks id (some t)) (hl : Lookups t₀ t)
    (hid : w'.nextTaskId = w.nextTaskId) (htrace : spawns w'.trace = spawns w.trace) :
    VisitsOk cfg (p', w') := by
  refine ⟨?_, ?_, ?_⟩
  · intro i u hi
    simp only [htrace]
    rw [show (p', w').2.tasks = _ from htasks] at hi
    rcases update_some hi with ⟨rfl, rfl⟩ | ⟨-, hi⟩
    · exact (h.tasks i t₀ ht).of_lookups hl
    · exact h.tasks i u hi
  · simp only [htrace, hid]
    exact h.fresh
  · simp only [htrace]
    exact h.within

/-- Tasks go, or nothing happens to them. -/
theorem VisitsOk.sub (h : VisitsOk cfg (p, w)) {p' : Phase}
    (htasks : ∀ i t, w'.tasks i = some t → w.tasks i = some t)
    (hid : w'.nextTaskId = w.nextTaskId) (htrace : spawns w'.trace = spawns w.trace) :
    VisitsOk cfg (p', w') := by
  refine ⟨?_, ?_, ?_⟩
  · intro i u hi
    simp only [htrace]
    exact h.tasks i u (htasks i u hi)
  · simp only [htrace, hid]
    exact h.fresh
  · simp only [htrace]
    exact h.within

theorem visits_client (h : VisitsOk cfg (p, w)) {new : Task} (hv : new.visits = 0)
    (hg : new.gluelessLookups = 0) {p' : Phase}
    (htasks : w'.tasks = Function.update w.tasks w.nextTaskId (some new))
    (hid : w'.nextTaskId = w.nextTaskId + 1) (htrace : spawns w'.trace = spawns w.trace) :
    VisitsOk cfg (p', w') := by
  have hnone := h.fresh w.nextTaskId le_rfl
  refine ⟨?_, ?_, ?_⟩
  · intro i u hi
    simp only [htrace]
    rw [show (p', w').2.tasks = _ from htasks] at hi
    rcases update_some hi with ⟨rfl, rfl⟩ | ⟨-, hi⟩
    · refine ⟨?_, fun v _ => hnone v⟩
      rw [hnone, hg]
      rfl
    · exact h.tasks i u hi
  · simp only [htrace, hid]
    exact fun i hi => h.fresh i (by dsimp only; omega)
  · simp only [htrace]
    exact h.within

theorem visits_child {id : ℕ} {wake : Wake} {sh : Shared} {t₀ t : Task} {q : Question}
    {ancestry : List Question} (hw : Wired (.running id wake) w) (h : VisitsOk cfg (.running id wake, w))
    (ht : w.tasks id = some t₀) (hstep : StepOk cfg wake w.shared t₀ (sh, t, .spawn q ancestry)) :
    VisitsOk cfg (.idle, spawnChild { w with shared := sh } id t q ancestry) := by
  have hid : id < w.nextTaskId := hw.task_lt id t₀ ht
  obtain ⟨v, hmoves, hv, -, hroom, -⟩ := hstep.ok
  obtain rfl : t = { v with gluelessLookups := v.gluelessLookups + 1 } := hv
  have hbefore : VisitOk (spawns w.trace) id v :=
    (h.tasks id t₀ ht).of_lookups (moves_lookups hmoves :)
  have hadd : (v.gluelessLookups + 1).toNat = v.gluelessLookups.toNat + 1 := by
    have hlt : v.gluelessLookups.toNat < cfg.maxGluelessNs.toNat := hroom
    have hmax := cfg.maxGluelessNs.toNat_lt
    rw [UInt8.toNat_add]
    exact Nat.mod_eq_of_lt (by simp; omega)
  have hcount : ∀ i u, ((id, v.visits) :: spawns w.trace).count (i, u) =
      (spawns w.trace).count (i, u) + if id = i ∧ v.visits = u then 1 else 0 := by
    intro i u
    rw [List.count_cons]
    simp
  rw [spawnChild_eq]
  refine ⟨?_, ?_, ?_⟩
  · intro i u hi
    show VisitOk ((id, v.visits) :: spawns w.trace) i u
    unfold VisitOk
    simp only [hcount]
    rcases update_some hi with ⟨rfl, rfl⟩ | ⟨hne, hi⟩
    · refine ⟨?_, fun u hlt => ?_⟩
      · simp only [hbefore.1, and_self, if_true, hadd]
      · rw [hbefore.2 u hlt, if_neg (by dsimp only at hlt; omega)]
    · have hother : ∀ u, ¬ (id = i ∧ v.visits = u) := fun _ hc => hne hc.1.symm
      simp only [hother, if_false, Nat.add_zero]
      rcases update_some hi with ⟨rfl, rfl⟩ | ⟨-, hi⟩
      · exact ⟨h.fresh _ le_rfl _, fun v _ => h.fresh _ le_rfl v⟩
      · exact h.tasks i u hi
  · intro i hi u
    have hnext : w.nextTaskId + 1 ≤ i := hi
    show ((id, v.visits) :: spawns w.trace).count (i, u) = 0
    rw [hcount, if_neg (by omega), h.fresh i (by dsimp only; omega)]
  · intro i u
    show ((id, v.visits) :: spawns w.trace).count (i, u) ≤ cfg.maxGluelessNs.toNat
    rw [hcount]
    split_ifs with hc
    · obtain ⟨rfl, rfl⟩ := hc
      have hlt : v.gluelessLookups.toNat < cfg.maxGluelessNs.toNat := hroom
      rw [hbefore.1]
      omega
    · exact h.within i u

theorem visits_micro (hw : Wired a.1 a.2) (hab : Micro cfg env a b) (h : VisitsOk cfg a) :
    VisitsOk cfg b := by
  cases hab with
  | join _ ht | start _ ht | deadline _ ht => exact h.put ht rfl (.inl ⟨rfl, rfl⟩) rfl rfl
  | client _ =>
    rw [spawnClient_eq]
    exact visits_client h rfl rfl rfl rfl rfl
  | call _ | shared _ | answer _ => exact h.sub (fun _ _ hi => hi) rfl rfl
  | upstream _ _ ht => exact h.put ht rfl (.inl ⟨rfl, rfl⟩) rfl spawns_upstream
  | @send w _ id _ t₀ _ _ _ _ ht hstep hsend =>
    obtain ⟨t', hmoves, rfl, -⟩ := hstep.ok
    obtain ⟨-, u, x, draws, hu, -, -, rfl⟩ := sendQuery_sent hsend
    have hl : Lookups t₀ u := by
      rw [hu]
      exact (moves_lookups hmoves :)
    exact h.put ht rfl hl rfl rfl
  | spent ht hstep hsend =>
    obtain ⟨t', hmoves, rfl, -⟩ := hstep.ok
    obtain ⟨rfl, -⟩ := sendQuery_over hsend
    exact h.put ht rfl (moves_lookups hmoves :) rfl rfl
  | child ht hstep => exact visits_child hw h ht hstep
  | @done w id wake t₀ t sh result ht hstep =>
    obtain ⟨t', hmoves, hnext⟩ := hstep.ok
    have hsame : t = t' := by
      cases result with
      | ok r => exact hnext.1
      | error e => exact hnext
    rw [hsame]
    exact h.put ht rfl (moves_lookups hmoves :) rfl rfl
  | drop _ | dropChild _ => exact h.sub (fun _ _ hi => (update_none hi).2) rfl rfl
  | wakeParent _ hp => exact h.put hp rfl (.inl ⟨rfl, rfl⟩) rfl rfl

end DNSentinel.Resolver.Limits
