import DNSentinel.Lib.Potential
import DNSentinel.Resolver.Limits

/-! # Resolutions end

A wake-up of a task is a start timer, an upstream completion or the completion of a sub-query. How
many a resolution has is bounded by the configuration alone. The bound is a potential: a task that
waits holds credit for the wake-ups its wait may lead to before the next upstream query is sent, and
the budget of queries not yet sent holds the rest. Every wake-up is paid for, and sending a query or
starting a sub-query only moves credit. -/

namespace DNSentinel.Resolver.Termination

open DNSentinel.Types Lib.Pairs Lib.Potential Lib.Runs Store.Model Selection Data Resolver.Core
open Machine Turns Effects Phases Wiring Events Limits

variable {cfg : Config} {env : Random} {w w' : World} {p : Phase} {a b : Phase × World} {c : ℕ}

/-! ### Credit -/

/-- The wake-ups that one wake-up of a task may lead to, itself included, until a query is sent: `g`
sub-queries per zone visit, nested `depth` deep. -/
def cost (g : ℕ) : ℕ → ℕ
  | 0 => 1
  | depth + 1 => 1 + g * (cost g depth + 1)

/-- What a sub-query may cost: its own wake-ups, and that of the task that waits for it. -/
def price (g : ℕ) : ℕ → ℕ
  | 0 => 0
  | depth + 1 => cost g depth + 1

theorem cost_eq (g : ℕ) : ∀ depth, cost g depth = 1 + g * price g depth
  | 0 => rfl
  | _ + 1 => rfl

theorem cost_le_succ (g : ℕ) : ∀ depth, cost g depth ≤ cost g (depth + 1)
  | 0 => Nat.le_add_right ..
  | depth + 1 => by
    have ih := cost_le_succ g depth
    show 1 + g * (cost g depth + 1) ≤ 1 + g * (cost g (depth + 1) + 1)
    gcongr

theorem cost_mono (g : ℕ) : Monotone (cost g) := monotone_nat_of_le_succ (cost_le_succ g)

/-- The sub-queries a zone visit may start. -/
def glueless (cfg : Config) : ℕ := cfg.maxGluelessNs.toNat

/-- How much deeper sub-queries of a task may nest. -/
def depthLeft (t : Task) : ℕ := kMaxSubqueryDepth - t.ancestry.length

/-- What a task holds while it waits, if it belongs to resolution `c`. -/
def credit (cfg : Config) (c : ℕ) (t : Task) : ℕ :=
  if t.budget = c then
    (if t.startTimer.isSome || t.upstream.isSome then cost (glueless cfg) (depthLeft t) else 0) +
    (if t.child.isSome then
      1 + (glueless cfg - t.gluelessLookups.toNat) * price (glueless cfg) (depthLeft t) else 0)
  else 0

/-- What a task that is running holds: it may start sub-queries, in a new zone unless it has only
waited for one. -/
def purse (cfg : Config) (c : ℕ) (wake : Wake) (t : Task) : ℕ :=
  if t.budget = c then
    match wake with
    | .child => (glueless cfg - t.gluelessLookups.toNat) * price (glueless cfg) (depthLeft t)
    | _ => glueless cfg * price (glueless cfg) (depthLeft t)
  else 0

def allowance (cfg : Config) (c : ℕ) : Phase × World → ℕ
  | (.running id wake, w) => worth (purse cfg c wake) (w.tasks id)
  | _ => 0

/-- The queries that resolution `c` may still send, each at the cost of a task that waits. -/
def reserve (cfg : Config) (c : ℕ) (w : World) : ℕ :=
  (cfg.maxUpstreamQueries.toNat - (w.budgets c).toNat) * cost (glueless cfg) kMaxSubqueryDepth

/-- The most wake-ups a resolution can have. -/
def wakeLimit (cfg : Config) : ℕ :=
  (cfg.maxUpstreamQueries.toNat + 1) * cost (glueless cfg) kMaxSubqueryDepth

/-- The wake-ups that resolution `c` has had, and those it may still have. -/
def account (cfg : Config) (c : ℕ) (s : Phase × World) : ℕ :=
  (wakes s.2.trace).count c + reserve cfg c s.2 +
    total (credit cfg c) s.2.tasks s.2.nextTaskId + allowance cfg c s

theorem credit_loose {t : Task} (h : wakeUps t = 0) : credit cfg c t = 0 := by
  obtain ⟨hstart, hup, hchild⟩ := wakeUps_eq_zero h
  simp [credit, hstart, hup, hchild]

/-- A task that waits for its start timer or for a query. -/
theorem credit_waiting {t : Task} (hone : wakeUps t = 1)
    (h : t.startTimer.isSome || t.upstream.isSome) :
    credit cfg c t = if t.budget = c then cost (glueless cfg) (depthLeft t) else 0 := by
  have hchild : t.child = none := by
    unfold wakeUps at hone
    cases hc : t.child with
    | none => rfl
    | some _ =>
      simp only [hc, Option.toList_some, List.length_singleton] at hone
      cases hs : t.startTimer <;> cases hu : t.upstream <;> simp [hs, hu] at h hone
  simp [credit, h, hchild]

/-- A task that waits for a sub-query. -/
theorem credit_parent {t : Task} (hone : wakeUps t = 1) (h : t.child.isSome = true) :
    credit cfg c t = if t.budget = c then
      1 + (glueless cfg - t.gluelessLookups.toNat) * price (glueless cfg) (depthLeft t) else 0 := by
  obtain ⟨k, hk⟩ := Option.isSome_iff_exists.mp h
  have hnone : t.startTimer = none ∧ t.upstream = none := by
    unfold wakeUps at hone
    cases hs : t.startTimer <;> cases hu : t.upstream <;> simp [hs, hu, hk] at hone ⊢
  simp [credit, hnone.1, hnone.2, hk]

/-! ### Every change is paid for -/

theorem allowance_running {id : ℕ} {wake : Wake} {t : Task} (ht : w.tasks id = some t) :
    allowance cfg c (.running id wake, w) = purse cfg c wake t := by
  show worth (purse cfg c wake) (w.tasks id) = _
  rw [ht]
  rfl

/-- A task is replaced and woken `n` times. -/
theorem account_put {id n : ℕ} {t₀ t : Task} {p' : Phase} (hw : Wired p w)
    (ht : w.tasks id = some t₀) (htasks : w'.tasks = Function.update w.tasks id (some t))
    (hnext : w'.nextTaskId = w.nextTaskId)
    (hwakes : (wakes w'.trace).count c = (wakes w.trace).count c + n)
    (h : n + reserve cfg c w' + credit cfg c t + allowance cfg c (p', w') ≤
      reserve cfg c w + credit cfg c t₀ + allowance cfg c (p, w)) :
    account cfg c (p', w') ≤ account cfg c (p, w) := by
  have htotal := total_update (credit cfg c) w.tasks (hw.task_lt id t₀ ht) (some t)
  rw [ht] at htotal
  simp only [worth, Option.elim_some] at htotal
  unfold account
  simp only [hwakes, htasks, hnext]
  omega

/-- A task is replaced by one that waits for the same. -/
theorem account_same {id : ℕ} {t₀ t : Task} {p' : Phase} (hw : Wired p w)
    (ht : w.tasks id = some t₀) (htasks : w'.tasks = Function.update w.tasks id (some t))
    (hnext : w'.nextTaskId = w.nextTaskId) (hwakes : wakes w'.trace = wakes w.trace)
    (hbudgets : w'.budgets = w.budgets) (hcredit : credit cfg c t = credit cfg c t₀)
    (hallow : allowance cfg c (p', w') ≤ allowance cfg c (p, w)) :
    account cfg c (p', w') ≤ account cfg c (p, w) := by
  refine account_put (n := 0) hw ht htasks hnext (by rw [hwakes]; rfl) ?_
  unfold reserve
  rw [hbudgets, hcredit]
  omega

/-- A task that waited is woken. -/
theorem account_woken {id : ℕ} {wake : Wake} {t₀ t : Task} (hw : Wired p w)
    (ht : w.tasks id = some t₀) (htasks : w'.tasks = Function.update w.tasks id (some t))
    (hnext : w'.nextTaskId = w.nextTaskId) (hwakes : wakes w'.trace = t₀.budget :: wakes w.trace)
    (hbudgets : w'.budgets = w.budgets) (hloose : wakeUps t = 0)
    (hallow : allowance cfg c (p, w) = 0) (hpurse : purse cfg c wake t = purse cfg c wake t₀)
    (hpaid : (if t₀.budget = c then 1 else 0) + purse cfg c wake t₀ ≤ credit cfg c t₀) :
    account cfg c (.running id wake, w') ≤ account cfg c (p, w) := by
  have htask : w'.tasks id = some t := by rw [htasks, Function.update_self]
  refine account_put hw ht htasks hnext (by rw [hwakes, List.count_cons]) ?_
  rw [allowance_running htask, hpurse, credit_loose hloose, hallow]
  unfold reserve
  rw [hbudgets]
  simp only [beq_iff_eq]
  omega

theorem purse_waiting {wake : Wake} {t : Task} (hone : wakeUps t = 1)
    (hwaits : (t.startTimer.isSome || t.upstream.isSome) = true) (hwake : wake ≠ .child) :
    (if t.budget = c then 1 else 0) + purse cfg c wake t ≤ credit cfg c t := by
  rw [credit_waiting hone hwaits, cost_eq]
  unfold purse
  split_ifs
  · cases wake with
    | child => exact absurd rfl hwake
    | start | upstream _ => exact le_rfl
  · exact le_rfl

theorem purse_parent {t : Task} (hone : wakeUps t = 1) (hchild : t.child.isSome = true) :
    (if t.budget = c then 1 else 0) + purse cfg c .child t ≤ credit cfg c t := by
  rw [credit_parent hone hchild]
  unfold purse
  split_ifs <;> exact le_rfl

theorem account_send {id : ℕ} {wake : Wake} {t₀ t : Task} (hw : Wired (.running id wake) w)
    (ht : w.tasks id = some t₀) (htasks : w'.tasks = Function.update w.tasks id (some t))
    (hnext : w'.nextTaskId = w.nextTaskId) (hwakes : wakes w'.trace = wakes w.trace)
    (hroom : w.budgets t.budget < cfg.maxUpstreamQueries)
    (hbudgets : w'.budgets = Function.update w.budgets t.budget (w.budgets t.budget + 1))
    (hone : wakeUps t = 1) (hup : t.upstream.isSome = true) :
    account cfg c (.idle, w') ≤ account cfg c (.running id wake, w) := by
  have hlt : (w.budgets t.budget).toNat < cfg.maxUpstreamQueries.toNat := hroom
  have hadd : (w.budgets t.budget + 1).toNat = (w.budgets t.budget).toNat + 1 := by
    have hmax := cfg.maxUpstreamQueries.toNat_lt
    rw [UInt32.toNat_add]
    exact Nat.mod_eq_of_lt (by simp; omega)
  have hcost : cost (glueless cfg) (depthLeft t) ≤ cost (glueless cfg) kMaxSubqueryDepth :=
    cost_mono _ (Nat.sub_le ..)
  refine account_put (n := 0) hw ht htasks hnext (by rw [hwakes]; rfl) ?_
  rw [credit_waiting hone (by simp [hup])]
  by_cases hc : t.budget = c
  · -- the query sent pays for what the task holds while it waits
    have hpaid : reserve cfg c w = reserve cfg c w' + cost (glueless cfg) kMaxSubqueryDepth := by
      unfold reserve
      rw [hbudgets, ← hc, Function.update_self, hadd, ← Nat.succ_mul]
      congr 1
      omega
    rw [if_pos hc, hpaid]
    simp only [allowance]
    omega
  · have hsame : reserve cfg c w' = reserve cfg c w := by
      unfold reserve
      rw [hbudgets, Function.update_of_ne (Ne.symm hc)]
    rw [if_neg hc, hsame]
    simp only [allowance]
    omega

/-- The sub-queries a running task may start in the zone it has come to are paid for. -/
theorem le_purse {wake : Wake} {t₀ v : Task} (hl : Lookups t₀ v)
    (hvisits : wake = .child → v.visits = t₀.visits) (hc : t₀.budget = c) :
    (glueless cfg - v.gluelessLookups.toNat) * price (glueless cfg) (depthLeft t₀) ≤
      purse cfg c wake t₀ := by
  unfold purse
  rw [if_pos hc]
  cases wake with
  | child =>
    rcases hl with ⟨-, hg⟩ | ⟨hlt, -⟩
    · rw [hg]
    · exact absurd (hvisits rfl) hlt.ne'
  | start | upstream _ => exact Nat.mul_le_mul_right _ (Nat.sub_le ..)

/-- What a running task holds pays for a sub-query and for the wait. -/
theorem credit_spawn {wake : Wake} {t₀ v new : Task} {child : ℕ} (hl : Lookups t₀ v)
    (hvisits : wake = .child → v.visits = t₀.visits) (hbudget : v.budget = t₀.budget)
    (hancestry : v.ancestry = t₀.ancestry) (hloose : wakeUps v = 0)
    (hroom : v.gluelessLookups < cfg.maxGluelessNs) (hdepth : v.ancestry.length < kMaxSubqueryDepth)
    (hnewb : new.budget = v.budget) (hnewa : new.ancestry.length = v.ancestry.length + 1)
    (hnewc : new.child = none) :
    credit cfg c new +
      credit cfg c { v with gluelessLookups := v.gluelessLookups + 1, child := some child } ≤
      purse cfg c wake t₀ := by
  by_cases hc : t₀.budget = c
  · obtain ⟨hstart, hup, -⟩ := wakeUps_eq_zero hloose
    have hlt : v.gluelessLookups.toNat < glueless cfg := hroom
    have hadd : (v.gluelessLookups + 1).toNat = v.gluelessLookups.toNat + 1 := by
      have hmax := cfg.maxGluelessNs.toNat_lt
      unfold glueless at hlt
      rw [UInt8.toNat_add]
      exact Nat.mod_eq_of_lt (by simp; omega)
    obtain ⟨d, hd⟩ : ∃ d, kMaxSubqueryDepth - v.ancestry.length = d + 1 :=
      ⟨kMaxSubqueryDepth - v.ancestry.length - 1, by omega⟩
    have hnew : depthLeft new = d := by
      unfold depthLeft
      omega
    have hwait : credit cfg c
        { v with gluelessLookups := v.gluelessLookups + 1, child := some child } =
        1 + (glueless cfg - (v.gluelessLookups.toNat + 1)) * (cost (glueless cfg) d + 1) := by
      simp [credit, hbudget, hc, hstart, hup, hadd, depthLeft, hd, price]
    have hstarted : credit cfg c new ≤ cost (glueless cfg) d := by
      unfold credit
      rw [hnewb, hbudget, if_pos hc, hnew, hnewc]
      simp only [Option.isSome_none, Bool.false_eq_true, if_false, Nat.add_zero]
      split_ifs
      · exact le_rfl
      · exact Nat.zero_le _
    refine le_trans ?_ (le_purse hl hvisits hc)
    have hsplit : glueless cfg - v.gluelessLookups.toNat =
        glueless cfg - (v.gluelessLookups.toNat + 1) + 1 := by omega
    rw [hwait, show depthLeft t₀ = d + 1 by rw [depthLeft, ← hancestry, hd], hsplit, Nat.succ_mul]
    simp only [price]
    omega
  · simp [credit, hnewb, hbudget, hc]

theorem account_child {id : ℕ} {wake : Wake} {sh : Shared} {t₀ t : Task} {q : Question}
    {ancestry : List Question} (hw : Wired (.running id wake) w) (ht : w.tasks id = some t₀)
    (hstep : StepOk cfg wake w.shared t₀ (sh, t, .spawn q ancestry)) :
    account cfg c (.idle, spawnChild { w with shared := sh } id t q ancestry) ≤
      account cfg c (.running id wake, w) := by
  have hid : id < w.nextTaskId := hw.task_lt id t₀ ht
  have hlife := turn_life hstep.ok
  have hzero : wakeUps t₀ = 0 := by
    obtain ⟨u, hu, hzero⟩ := hw.phase
    rwa [Option.some.inj (ht.symm.trans hu)]
  have hvisits := hstep.visits
  obtain ⟨v, hmoves, hv, -, hroom, hdepth, hmore, -⟩ := hstep.ok
  obtain rfl : t = { v with gluelessLookups := v.gluelessLookups + 1 } := hv
  let new : Task :=
    { question := q, qname := q.qname, ancestry, budget := v.budget, started := sh.now
      done := .onChildDone id, startTimer := some w.nextTimer }
  let waiting : Task :=
    { v with gluelessLookups := v.gluelessLookups + 1, child := some w.nextTaskId }
  have hlength : ancestry.length = v.ancestry.length + 1 := by
    rw [hmore, List.length_append]
    rfl
  have hpaid : credit cfg c new + credit cfg c waiting ≤ purse cfg c wake t₀ :=
    credit_spawn (moves_lookups hmoves :) hvisits (congrArg Life.budget hlife)
      (congrArg Life.ancestry hlife) ((wakeUps_of_life hlife).trans hzero :) hroom hdepth rfl hlength rfl
  have htotal : total (credit cfg c) (Function.update (Function.update w.tasks w.nextTaskId (some new))
      id (some waiting)) (w.nextTaskId + 1) =
      total (credit cfg c) w.tasks w.nextTaskId + credit cfg c new + credit cfg c waiting := by
    have h := total_update (credit cfg c)
      (Function.update w.tasks w.nextTaskId (some new)) (Nat.lt_succ_of_lt hid) (some waiting)
    rw [total_new, Function.update_of_ne hid.ne, ht] at h
    simpa [worth, credit_loose hzero] using h
  have hafter : account cfg c (.idle, spawnChild { w with shared := sh } id
      { v with gluelessLookups := v.gluelessLookups + 1 } q ancestry) =
      (wakes w.trace).count c + reserve cfg c w + (total (credit cfg c) w.tasks w.nextTaskId +
        credit cfg c new + credit cfg c waiting) + 0 := by
    rw [spawnChild_eq, ← htotal]
    rfl
  rw [hafter]
  unfold account
  rw [allowance_running ht]
  dsimp only
  omega

theorem account_drop {id : ℕ} {t : Task} {p' : Phase} (hw : Wired p w) (ht : w.tasks id = some t)
    (hallow : allowance cfg c (p', remove w id t) = 0) :
    account cfg c (p', remove w id t) ≤ account cfg c (p, w) := by
  have htotal := total_update (credit cfg c) w.tasks (hw.task_lt id t ht) none
  simp only [worth, Option.elim_none, Nat.add_zero] at htotal
  unfold account
  rw [hallow]
  show _ + reserve cfg c w +
    total (credit cfg c) (Function.update w.tasks id none) w.nextTaskId + 0 ≤ _
  dsimp only [remove]
  omega

/-- A client that has just come does not change what other resolutions have. -/
theorem account_client {new : Task} (hc : c < w.nextTaskId)
    (htasks : w'.tasks = Function.update w.tasks w.nextTaskId (some new))
    (hbudget : new.budget = w.nextTaskId) (hnext : w'.nextTaskId = w.nextTaskId + 1)
    (hwakes : wakes w'.trace = wakes w.trace)
    (hbudgets : w'.budgets = Function.update w.budgets w.nextTaskId 0) :
    account cfg c (.idle, w') = account cfg c (.idle, w) := by
  have hnew : worth (credit cfg c) (some new) = 0 := by
    simp [worth, credit, hbudget, hc.ne']
  unfold account reserve
  dsimp only
  rw [htasks, hnext, total_new, hnew, hwakes, hbudgets, Function.update_of_ne hc.ne]
  rfl

/-- The step of a running task left it as it was, as far as waiting goes. -/
theorem loose_turn {id : ℕ} {wake : Wake} {t₀ : Task} {turn : Turn} (hw : Wired (.running id wake) w)
    (ht : w.tasks id = some t₀) (hstep : StepOk cfg wake w.shared t₀ turn) :
    wakeUps t₀ = 0 ∧ wakeUps turn.2.1 = 0 := by
  obtain ⟨u, hu, hzero⟩ := hw.phase
  obtain rfl : u = t₀ := Option.some.inj (hu.symm.trans ht)
  exact ⟨hzero, (wakeUps_of_life (turn_life hstep.ok)).trans hzero⟩

/-- **Every change is paid for.** -/
theorem account_micro (hw : Wired a.1 a.2) (hab : Micro cfg env a b) (hc : c < a.2.nextTaskId) :
    account cfg c b ≤ account cfg c a := by
  cases hab with
  | join _ ht | deadline _ ht => exact account_same hw ht rfl rfl rfl rfl rfl le_rfl
  | client _ =>
    rw [spawnClient_eq]
    exact le_of_eq (account_client hc rfl rfl rfl rfl rfl)
  | call _ => exact le_rfl
  | shared _ => exact le_rfl
  | @start w tid due id t htimer ht =>
    obtain ⟨u, hu, hstart⟩ := hw.start_task htimer
    obtain rfl : u = t := Option.some.inj (hu.symm.trans ht)
    have hone : wakeUps u = 1 := (hw.tasks id u ht).waits (by simp [loose])
    exact account_woken hw ht rfl rfl rfl rfl (loose_start hone hstart) rfl rfl
      (purse_waiting hone (by simp [hstart]) (by simp))
  | @upstream w qid x t result hx hok ht =>
    obtain ⟨u, hu, hup⟩ := hw.pending_task hx
    obtain rfl : u = t := Option.some.inj (hu.symm.trans ht)
    have hone : wakeUps u = 1 := (hw.tasks x.task u ht).waits (by simp [loose])
    exact account_woken hw ht rfl rfl wakes_upstream rfl (loose_upstream hone hup) rfl rfl
      (purse_waiting hone (by simp [hup]) (by simp))
  | send ht hstep hsend =>
    obtain ⟨hroom, u, x, draws, hu, -, -, rfl⟩ := sendQuery_sent hsend
    obtain ⟨hzero, hstay⟩ := loose_turn hw ht hstep
    obtain ⟨hstart, -, hchild⟩ := wakeUps_eq_zero hstay
    dsimp only at hstart hchild
    have hone : wakeUps u = 1 := by
      rw [hu]
      simp only [wakeUps, hstart, hchild, Option.toList_some, Option.toList_none,
        List.length_singleton, List.length_nil]
    refine account_send hw ht rfl rfl rfl (t := u) ?_ ?_ hone ?_ <;> rw [hu]
    · exact hroom
    · rfl
  | @spent w w' id wake t₀ t sh address transport result ht hstep hsend =>
    obtain ⟨rfl, -⟩ := sendQuery_over hsend
    obtain ⟨hzero, hstay⟩ := loose_turn hw ht hstep
    exact account_same hw ht rfl rfl rfl rfl ((credit_loose hstay).trans (credit_loose hzero).symm)
      (Nat.zero_le _)
  | child ht hstep => exact account_child hw ht hstep
  | done ht hstep =>
    obtain ⟨hzero, hstay⟩ := loose_turn hw ht hstep
    exact account_same hw ht rfl rfl rfl rfl ((credit_loose hstay).trans (credit_loose hzero).symm)
      (Nat.zero_le _)
  | drop ht => exact account_drop hw ht rfl
  | dropChild hc' => exact account_drop hw hc' rfl
  | answer _ => exact le_rfl
  | @wakeParent w id parent t tp result hdone hp =>
    obtain ⟨-, u, hu, hchild⟩ := hw.phase.2.2.2.2 parent (by simp [parentOf, hdone])
    obtain rfl : u = tp := Option.some.inj (hu.symm.trans hp)
    have hone : wakeUps u = 1 := (hw.tasks parent u hp).waits (by simp [loose])
    exact account_woken hw hp rfl rfl rfl rfl (loose_child hone hchild) rfl rfl
      (purse_parent hone (by simp [hchild]))

/-! ### Resolutions that have just begun -/

/-- A change wakes no task, or one. -/
theorem wakes_micro (hab : Micro cfg env a b) : wakes b.2.trace = wakes a.2.trace ∨
    ∃ i t, a.2.tasks i = some t ∧ wakes b.2.trace = t.budget :: wakes a.2.trace := by
  cases hab with
  | client _ =>
    rw [spawnClient_eq]
    exact .inl rfl
  | start _ ht => exact .inr ⟨_, _, ht, rfl⟩
  | upstream _ _ ht => exact .inr ⟨_, _, ht, wakes_upstream⟩
  | send _ _ hsend =>
    obtain ⟨-, u, x, draws, -, -, -, rfl⟩ := sendQuery_sent hsend
    exact .inl rfl
  | spent _ _ hsend =>
    obtain ⟨rfl, -⟩ := sendQuery_over hsend
    exact .inl rfl
  | wakeParent _ hp => exact .inr ⟨_, _, hp, rfl⟩
  | _ => exact .inl rfl

/-- No resolution has had or may have more wake-ups than the limit. -/
structure ChargedOk (cfg : Config) (s : Phase × World) : Prop where
  fresh : ∀ c, s.2.nextTaskId ≤ c → (wakes s.2.trace).count c = 0
  within : ∀ c, c < s.2.nextTaskId → account cfg c s ≤ wakeLimit cfg

/-- What a task number that has just been given out starts with. -/
theorem account_new {s : Phase × World} (hwakes : (wakes s.2.trace).count c = 0)
    (htotal : total (credit cfg c) s.2.tasks s.2.nextTaskId ≤ cost (glueless cfg) kMaxSubqueryDepth)
    (hallow : allowance cfg c s = 0) : account cfg c s ≤ wakeLimit cfg := by
  have hreserve : reserve cfg c s.2 ≤
      cfg.maxUpstreamQueries.toNat * cost (glueless cfg) kMaxSubqueryDepth :=
    Nat.mul_le_mul_right _ (Nat.sub_le ..)
  unfold account wakeLimit
  rw [hwakes, hallow, Nat.succ_mul]
  omega

theorem account_next (hq : QueriesOk cfg a) (ha : ChargedOk cfg a) (hab : Micro cfg env a b)
    (hnext : a.2.nextTaskId < b.2.nextTaskId) : account cfg a.2.nextTaskId b ≤ wakeLimit cfg := by
  have hother : ∀ {i : ℕ} {t : Task}, a.2.tasks i = some t → credit cfg a.2.nextTaskId t = 0 := by
    intro i t ht
    have hne : t.budget ≠ a.2.nextTaskId := (hq.tasks i t ht).ne
    simp [credit, hne]
  have hzero : total (credit cfg a.2.nextTaskId) a.2.tasks a.2.nextTaskId = 0 :=
    total_eq_zero fun i t ht => hother ht
  have hcount := ha.fresh _ le_rfl
  cases hab with
  | client _ =>
    rw [spawnClient_eq]
    refine account_new hcount ?_ rfl
    dsimp only [World.log] at hzero ⊢
    rw [total_new, hzero, Nat.zero_add]
    simp [worth, credit, depthLeft]
  | @child w id wake t₀ t sh q ancestry ht hstep =>
    have hsame : t.budget = t₀.budget := congrArg Life.budget (turn_life hstep.ok)
    have hne : t.budget ≠ w.nextTaskId := hsame ▸ (hq.tasks id t₀ ht).ne
    have htotal : total (credit cfg w.nextTaskId) (spawnChild { w with shared := sh } id t q
        ancestry).tasks (w.nextTaskId + 1) = 0 := by
      refine total_eq_zero fun i u hi => ?_
      rw [spawnChild_eq] at hi
      rcases update_some hi with ⟨-, rfl⟩ | ⟨-, hi⟩
      · simp [credit, hne]
      · rcases update_some hi with ⟨-, rfl⟩ | ⟨-, hi⟩
        · simp [credit, hne]
        · exact hother hi
    exact account_new hcount (htotal.le.trans (Nat.zero_le _)) rfl
  | send _ _ hsend =>
    obtain ⟨-, u, x, draws, -, -, -, rfl⟩ := sendQuery_sent hsend
    exact absurd hnext (lt_irrefl _)
  | spent _ _ hsend =>
    obtain ⟨rfl, -⟩ := sendQuery_over hsend
    exact absurd hnext (lt_irrefl _)
  | _ => exact absurd hnext (lt_irrefl _)

theorem nextTaskId_le_succ (hab : Micro cfg env a b) : b.2.nextTaskId ≤ a.2.nextTaskId + 1 := by
  cases hab with
  | client _ =>
    rw [spawnClient_eq]
    exact le_rfl
  | child _ _ => exact le_rfl
  | send _ _ hsend =>
    obtain ⟨-, u, x, draws, -, -, -, rfl⟩ := sendQuery_sent hsend
    exact Nat.le_succ _
  | spent _ _ hsend =>
    obtain ⟨rfl, -⟩ := sendQuery_over hsend
    exact Nat.le_succ _
  | _ => exact Nat.le_succ _

theorem charged_micro (hw : Wired a.1 a.2) (hq : QueriesOk cfg a) (hab : Micro cfg env a b)
    (ha : ChargedOk cfg a) : ChargedOk cfg b where
  fresh c hc := by
    have hle : a.2.nextTaskId ≤ c := (nextTaskId_micro hab).trans hc
    rcases wakes_micro hab with hsame | ⟨i, t, ht, hwoken⟩
    · rw [hsame]
      exact ha.fresh c hle
    · have hne : t.budget ≠ c := ((hq.tasks i t ht).trans_le hle).ne
      rw [hwoken, List.count_cons_of_ne hne]
      exact ha.fresh c hle
  within c hc := by
    by_cases hold : c < a.2.nextTaskId
    · exact (account_micro hw hab hold).trans (ha.within c hold)
    · have hlast := nextTaskId_le_succ hab
      obtain rfl : c = a.2.nextTaskId := by omega
      exact account_next hq ha hab hc

/-! ### Handlers end -/

/-- How many more CNAMEs an 8-bit counter lets through before it meets a limit below 255. -/
def hopsLeft (hops : UInt8) : ℕ := if hops = 255 then 256 else 255 - hops.toNat

theorem hopsLeft_lt {hops : UInt8} {most : UInt8} (hmost : most < 255) (h : hops + 1 ≤ most) :
    hopsLeft (hops + 1) < hopsLeft hops := by
  have hlt : (hops + 1).toNat < 255 := by
    have h1 : (hops + 1).toNat ≤ most.toNat := h
    have h2 : most.toNat < 255 := hmost
    omega
  have hne : hops + 1 ≠ 255 := fun he => absurd hlt (by rw [he]; decide)
  unfold hopsLeft
  rw [if_neg hne]
  split_ifs with hlast
  · omega
  · have hadd : (hops + 1).toNat = hops.toNat + 1 := by
      have hb : hops.toNat ≠ 255 := fun he => hlast (UInt8.toNat_inj.mp he)
      have hmax := hops.toNat_lt
      rw [UInt8.toNat_add]
      exact Nat.mod_eq_of_lt (by simp; omega)
    omega

theorem hopsLeft_le (hops : UInt8) : hopsLeft hops ≤ 256 := by
  unfold hopsLeft
  split_ifs <;> omega

theorem stepLoop_total (hmax : cfg.maxCnameChain < 255) : ∀ (fuel : ℕ) (sh : Shared) (t : Task),
    hopsLeft t.cnameHops < fuel → ∃ turn, stepLoop cfg env fuel sh t = some turn
  | 0, _, _, h => absurd h (Nat.not_lt_zero _)
  | fuel + 1, sh, t, h => by
    unfold stepLoop
    dsimp only
    split
    · exact ⟨_, rfl⟩
    split
    · split_ifs <;> exact ⟨_, rfl⟩
    split_ifs
    · exact ⟨_, rfl⟩
    split
    · exact ⟨_, rfl⟩
    split
    · exact ⟨_, rfl⟩
    · next t' ht' =>
      obtain ⟨hhops, target, -, rfl⟩ := followCname_some ht'
      refine stepLoop_total hmax fuel _ _ ?_
      have hlt := hopsLeft_lt hmax hhops
      dsimp only
      omega

theorem step_total (hmax : cfg.maxCnameChain < 255) (sh : Shared) (t : Task) :
    ∃ turn, step cfg env 257 sh t = some turn := by
  unfold step
  split_ifs
  · exact ⟨_, rfl⟩
  · exact stepLoop_total hmax 257 sh t (Nat.lt_succ_of_le (hopsLeft_le _))

theorem answerLoop_total (hmax : cfg.maxCnameChain < 255) (source : Source) (response : Message)
    (rank : TrustRank) : ∀ (fuel : ℕ) (followed : Bool) (sh : Shared) (t : Task),
    hopsLeft t.cnameHops < fuel →
    ∃ out, answerLoop cfg source response rank fuel followed sh t = some out
  | 0, _, _, _, h => absurd h (Nat.not_lt_zero _)
  | fuel + 1, followed, sh, t, h => by
    unfold answerLoop
    dsimp only
    split_ifs
    · exact ⟨_, rfl⟩
    · exact ⟨_, rfl⟩
    · exact ⟨_, rfl⟩
    split
    · exact ⟨_, rfl⟩
    split
    · exact ⟨_, rfl⟩
    · next t' ht' =>
      obtain ⟨hhops, target, -, rfl⟩ := followCname_some ht'
      refine answerLoop_total hmax source response rank fuel true _ _ ?_
      have hlt := hopsLeft_lt hmax hhops
      dsimp only
      omega

theorem handleFiltered_total (hmax : cfg.maxCnameChain < 255) (source : Source) (response : Message)
    (sh : Shared) (t : Task) (rtt : ℕ) :
    ∃ turn, handleFiltered cfg env 257 source response sh t rtt = some turn := by
  unfold handleFiltered
  obtain ⟨⟨sh', t', out⟩, hout⟩ := answerLoop_total hmax source response
    (if response.header.aa then .answer else .authority) 257 false
    (rate sh t (usable response t) rtt) t (Nat.lt_succ_of_le (hopsLeft_le _))
  simp only [hout, Option.bind_eq_bind, Option.bind_some]
  cases out with
  | inl next => exact ⟨_, rfl⟩
  | inr followed =>
    cases followed with
    | true => exact step_total hmax sh' t'
    | false => exact ⟨_, rfl⟩

theorem onResponse_total (hmax : cfg.maxCnameChain < 255) (sh : Shared) (t : Task)
    (response : Except UpstreamError Message) :
    ∃ turn, onResponse cfg env 257 sh t response = some turn := by
  unfold onResponse
  split
  · exact ⟨_, rfl⟩
  · exact ⟨_, rfl⟩
  · exact ⟨_, rfl⟩
  · next message =>
    unfold handleResponse
    dsimp only
    generalize (if t.sent0x20 = true then restoreCase message t.qname else message) = restored
    split_ifs
    · exact ⟨_, rfl⟩
    · exact ⟨_, rfl⟩
    · exact ⟨_, rfl⟩
    · exact handleFiltered_total hmax _ _ sh t _

/-! ### Resolutions go on until they finish -/

/-- The sub-query `n` levels below a task. -/
def descend (tasks : ℕ → Option Task) : ℕ → ℕ → Option ℕ
  | 0, i => some i
  | n + 1, i => (field tasks Task.child i).bind (descend tasks n)

/-- Between events, a sub-query that is waited for is there. -/
theorem child_task (hw : Wired .idle w) {i child : ℕ} {t : Task} (ht : w.tasks i = some t)
    (hchild : t.child = some child) : ∃ tc, w.tasks child = some tc := by
  have hchildren : Matching (field w.tasks Task.child) (field w.tasks parentOf) := hw.children
  obtain ⟨tc, htc, -⟩ := hchildren.entry ht hchild
  exact ⟨tc, htc⟩

/-- A task `n` levels below another shares its budget and has `n` more ancestors. -/
theorem descend_family (hw : Wired .idle w) (hf : Families w.tasks) : ∀ (n i j : ℕ) (t : Task),
    w.tasks i = some t → descend w.tasks n i = some j →
    ∃ tj, w.tasks j = some tj ∧ tj.budget = t.budget ∧ tj.ancestry.length = t.ancestry.length + n
  | 0, i, j, t, ht, hj => by
    obtain rfl := Option.some.inj hj
    exact ⟨t, ht, rfl, rfl⟩
  | n + 1, i, j, t, ht, hj => by
    obtain ⟨child, hchild, hj⟩ := Option.bind_eq_some_iff.mp hj
    have hchild' : t.child = some child := by simpa [field, ht] using hchild
    obtain ⟨tc, htc⟩ := child_task hw ht hchild'
    obtain ⟨hbudget, hlength⟩ := hf i t child tc ht hchild' htc
    obtain ⟨tj, htj, hbudget', hlength'⟩ := descend_family hw hf n child j tc htc hj
    refine ⟨tj, htj, hbudget'.trans hbudget, ?_⟩
    omega

/-- Task `j` waits for a start timer or for an upstream query. -/
def Awaits (w : World) (j : ℕ) : Prop :=
  (∃ tid due, w.timers tid = some ⟨due, .start j⟩) ∨ ∃ qid x, w.pending qid = some x ∧ x.task = j

theorem awaits_below (hw : Wired .idle w) (hf : Families w.tasks) : ∀ (n i : ℕ) (t : Task),
    w.tasks i = some t → w.nextTaskId ≤ i + n →
    ∃ j tj, w.tasks j = some tj ∧ tj.budget = t.budget ∧
      (tj.startTimer.isSome || tj.upstream.isSome) = true ∧ Awaits w j
  | 0, i, t, ht, hn => absurd (hw.task_lt i t ht) (by omega)
  | n + 1, i, t, ht, hn => by
    have hone : wakeUps t = 1 := (hw.tasks i t ht).waits (by simp [loose])
    cases hstart : t.startTimer with
    | some tid =>
      obtain ⟨⟨due, action⟩, htimer, hof⟩ := hw.starts.entry ht hstart
      refine ⟨i, t, ht, rfl, by simp [hstart], .inl ⟨tid, due, ?_⟩⟩
      cases action with
      | start id =>
        obtain rfl := Option.some.inj hof
        exact htimer
      | deadline id => simp [startOf] at hof
    | none =>
      cases hup : t.upstream with
      | some qid =>
        obtain ⟨x, hx, hof⟩ := hw.upstreams.entry ht hup
        exact ⟨i, t, ht, rfl, by simp [hup], .inr ⟨qid, x, hx, Option.some.inj hof⟩⟩
      | none =>
        cases hchild : t.child with
        | none => simp [wakeUps, hstart, hup, hchild] at hone
        | some child =>
          obtain ⟨tc, htc⟩ := child_task hw ht hchild
          have hlt := (hw.tasks i t ht).child_lt child hchild
          obtain ⟨j, tj, htj, hbudget, hwaits, hawaits⟩ :=
            awaits_below hw hf n child tc htc (by omega)
          exact ⟨j, tj, htj, hbudget.trans (hf i t child tc ht hchild htc).1, hwaits, hawaits⟩

/-- A resolution that has a task waiting has not used up its wake-ups. -/
theorem wakes_lt {j : ℕ} {t : Task} (hw : Wired .idle w) (hcharged : ChargedOk cfg (.idle, w))
    (ht : w.tasks j = some t) (hbudget : t.budget < w.nextTaskId)
    (hwaits : (t.startTimer.isSome || t.upstream.isSome) = true) :
    (wakes w.trace).count t.budget < wakeLimit cfg := by
  have hone : wakeUps t = 1 := (hw.tasks j t ht).waits (by simp [loose])
  have hwithin := hcharged.within t.budget hbudget
  have hheld : worth (credit cfg t.budget) (w.tasks j) ≤
      total (credit cfg t.budget) w.tasks w.nextTaskId := worth_le_total (hw.task_lt j t ht)
  have hcredit : worth (credit cfg t.budget) (w.tasks j) = cost (glueless cfg) (depthLeft t) := by
    rw [ht]
    show credit cfg t.budget t = _
    rw [credit_waiting hone hwaits, if_pos rfl]
  have hpositive : 0 < cost (glueless cfg) (depthLeft t) := by
    rw [cost_eq]
    omega
  unfold account at hwithin
  dsimp only at hwithin
  omega

/-- Client task `c` is live, being released, or finished. -/
def Underway (c : ℕ) (s : Phase × World) : Prop :=
  (∃ t, s.2.tasks c = some t ∧ t.client = true) ∨ (∃ orphan t r, s.1 = .releasing orphan c t r) ∨
    ∃ t r, .finished c t r ∈ s.2.trace

theorem live_put {tasks : ℕ → Option Task} {id : ℕ} {t₀ t u : Task} (hc : tasks c = some u)
    (hu : u.client = true) (ht : tasks id = some t₀) (hclient : t.client = t₀.client) :
    ∃ u, Function.update tasks id (some t) c = some u ∧ u.client = true := by
  by_cases hid : c = id
  · subst hid
    obtain rfl : u = t₀ := Option.some.inj (hc.symm.trans ht)
    exact ⟨t, Function.update_self .., hclient.trans hu⟩
  · exact ⟨u, (Function.update_of_ne hid ..).trans hc, hu⟩

/-- A client task that is there stays, or is being released. -/
theorem live_micro (hw : Wired a.1 a.2) (hab : Micro cfg env a b) {u : Task}
    (hc : a.2.tasks c = some u) (hu : u.client = true) : Underway c b := by
  have hturn : ∀ {id : ℕ} {wake : Wake} {t₀ t : Task} {turn : Turn}, a.2.tasks id = some t₀ →
      StepOk cfg wake a.2.shared t₀ turn → t.client = turn.2.1.client →
      ∃ u, Function.update a.2.tasks id (some t) c = some u ∧ u.client = true := by
    intro id wake t₀ t turn ht hstep hclient
    have hsame : turn.2.1.client = t₀.client := congrArg Life.client (turn_life hstep.ok)
    exact live_put hc hu ht (hclient.trans hsame)
  have hnew : c ≠ a.2.nextTaskId := (hw.task_lt c u hc).ne
  cases hab with
  | join _ ht | start _ ht | deadline _ ht | upstream _ _ ht => exact .inl (live_put hc hu ht rfl)
  | client _ =>
    rw [spawnClient_eq]
    exact .inl ⟨u, (Function.update_of_ne hnew ..).trans hc, hu⟩
  | call _ | shared _ | answer _ => exact .inl ⟨u, hc, hu⟩
  | send ht hstep hsend =>
    obtain ⟨-, t', x, draws, ht', -, -, rfl⟩ := sendQuery_sent hsend
    exact .inl (hturn ht hstep (by rw [ht']))
  | spent ht hstep hsend =>
    obtain ⟨rfl, -⟩ := sendQuery_over hsend
    exact .inl (hturn ht hstep rfl)
  | @child w id wake t₀ t sh q ancestry ht hstep =>
    have hid : id ≠ w.nextTaskId := (hw.task_lt id t₀ ht).ne
    have hsame : t.client = t₀.client := congrArg Life.client (turn_life hstep.ok)
    rw [spawnChild_eq]
    exact .inl (live_put ((Function.update_of_ne hnew ..).trans hc) hu
      ((Function.update_of_ne hid ..).trans ht) hsame)
  | done ht hstep => exact .inl (hturn ht hstep rfl)
  | @drop w id t result ht =>
    by_cases hid : c = id
    · exact .inr (.inl ⟨t.child, t, result, by rw [hid]⟩)
    · exact .inl ⟨u, (Function.update_of_ne hid ..).trans hc, hu⟩
  | @dropChild w child id tc t result hchild =>
    obtain ⟨-, tc', htc', hparent⟩ := hw.phase.2.2.2.1 child rfl
    -- a sub-query is no client's task
    have hne : c ≠ child := by
      rintro rfl
      obtain rfl : tc' = u := Option.some.inj (htc'.symm.trans hc)
      have hclient := (hw.tasks c tc' hc).client
      rw [hu, Option.isNone_eq_false_iff.mpr hparent] at hclient
      exact absurd hclient (by decide)
    exact .inl ⟨u, (Function.update_of_ne hne ..).trans hc, hu⟩
  | wakeParent _ hp => exact .inl (live_put hc hu hp rfl)

theorem underway_micro (hw : Wired a.1 a.2) (hab : Micro cfg env a b) (h : Underway c a) :
    Underway c b := by
  rcases h with ⟨u, hc, hu⟩ | ⟨orphan, t, r, hphase⟩ | ⟨t, r, hfinished⟩
  · exact live_micro hw hab hc hu
  · cases hab with
    | dropChild _ =>
      obtain ⟨-, rfl, rfl, rfl⟩ := Phase.releasing.inj hphase
      exact .inr (.inl ⟨_, _, _, rfl⟩)
    | answer _ =>
      obtain ⟨-, rfl, rfl, rfl⟩ := Phase.releasing.inj hphase
      exact .inr (.inr ⟨_, _, List.mem_cons_self⟩)
    | wakeParent _ _ =>
      obtain ⟨-, rfl, rfl, rfl⟩ := Phase.releasing.inj hphase
      exact .inr (.inr ⟨_, _, List.mem_cons_of_mem _ List.mem_cons_self⟩)
    | _ => simp at hphase
  · exact .inr (.inr ⟨t, r, (trace_micro hab).subset hfinished⟩)

/-- Every event that can happen is handled to its end. -/
theorem timer_handled (hmax : cfg.maxCnameChain < 255) (hcalls : w.calls = []) {tid : ℕ}
    {timer : Timer} (htimer : w.timers tid = some timer) (hdue : timer.due ≤ w.shared.now) :
    ∃ w', Step cfg env w (.timer tid) w' := by
  have happly : apply cfg env 257 w (.timer tid) =
      onTimer cfg env 257 { w with timers := without w.timers (some tid) } timer.action := by
    simp only [apply, hcalls, htimer, if_pos hdue]
  obtain ⟨due, action⟩ := timer
  cases action with
  | deadline id =>
    cases ht : w.tasks id with
    | none | some t => exact ⟨_, 257, happly.trans (by simp only [onTimer, ht]; rfl)⟩
  | start id =>
    cases ht : w.tasks id with
    | none => exact ⟨_, 257, happly.trans (by simp only [onTimer, ht]; rfl)⟩
    | some t =>
      obtain ⟨turn, hturn⟩ : ∃ turn, step cfg env 257 w.shared { t with startTimer := none } =
        some turn := step_total hmax ..
      exact ⟨_, 257, happly.trans (by simp only [onTimer, ht, hturn]; rfl)⟩

theorem completion_handled (hmax : cfg.maxCnameChain < 255) (hcalls : w.calls = []) {qid : ℕ}
    {x : Pending} (hx : w.pending qid = some x) {result : Except UpstreamError Message}
    (hok : allowed cfg w.shared.now x result = true) :
    ∃ w', Step cfg env w (.upstream qid result) w' := by
  have happly : apply cfg env 257 w (.upstream qid result) =
      onUpstream cfg env 257 { w with pending := without w.pending (some qid) } x result := by
    simp only [apply, hcalls, hx, if_pos hok]
  cases ht : w.tasks x.task with
  | none => exact ⟨_, 257, happly.trans (by simp only [onUpstream, ht]; rfl)⟩
  | some t =>
    obtain ⟨turn, hturn⟩ : ∃ turn, onResponse cfg env 257 w.shared { t with upstream := none } result =
      some turn := onResponse_total hmax ..
    exact ⟨_, 257, happly.trans (by simp only [onUpstream, ht, hturn]; rfl)⟩

/-- What holds of the resolutions in a state. -/
structure Bounded (cfg : Config) (env : Random) (w : World) : Prop where
  /-- a resolution and its sub-queries stay within the budget of upstream queries -/
  queries : ∀ c, (sends w.trace).count c ≤ cfg.maxUpstreamQueries.toNat
  /-- sub-queries share the budget of their client, and nest to a fixed depth -/
  nesting : ∀ i t n j, w.tasks i = some t → descend w.tasks n i = some j →
    n ≤ kMaxSubqueryDepth ∧ ∃ tj, w.tasks j = some tj ∧ tj.budget = t.budget
  /-- a zone visit starts a limited number of sub-queries -/
  lookups : ∀ i visit, (spawns w.trace).count (i, visit) ≤ cfg.maxGluelessNs.toNat
  wakeUps : ∀ c, (wakes w.trace).count c ≤ wakeLimit cfg
  /-- a client's resolution that is not finished has wake-ups left and waits for one -/
  waiting : ∀ c t, w.tasks c = some t → t.client = true → t.budget = c ∧
    (wakes w.trace).count c < wakeLimit cfg ∧ ∃ j tj, w.tasks j = some tj ∧ tj.budget = c ∧ Awaits w j
  /-- the wake-ups are handled to their end -/
  timers : w.calls = [] → ∀ tid timer, w.timers tid = some timer → timer.due ≤ w.shared.now →
    ∃ w', Step cfg env w (.timer tid) w'
  completions : w.calls = [] → ∀ qid x result, w.pending qid = some x →
    allowed cfg w.shared.now x result = true → ∃ w', Step cfg env w (.upstream qid result) w'
  /-- a client's resolution goes only by finishing -/
  finishes : ∀ c t, w.tasks c = some t → t.client = true → ∀ es w', Run (Step cfg env) w es w' →
    (∃ t', w'.tasks c = some t' ∧ t'.client = true) ∨ ∃ t' r, .finished c t' r ∈ w'.trace

/-- What every change keeps, taken together. -/
structure LimitsOk (cfg : Config) (s : Phase × World) : Prop where
  queries : QueriesOk cfg s
  ranks : ∀ i t, s.2.tasks i = some t → RankOk i t
  families : Families s.2.tasks
  visits : VisitsOk cfg s
  charged : ChargedOk cfg s

theorem limits_micro (hw : Wired a.1 a.2) (hab : Micro cfg env a b) (h : LimitsOk cfg a) :
    LimitsOk cfg b where
  queries := queries_micro hab h.queries
  ranks := rank_micro hab h.ranks
  families := families_micro hw hab h.families
  visits := visits_micro hw hab h.visits
  charged := charged_micro hw h.queries hab h.charged

theorem limits_init (cfg : Config) (sh : Shared) : LimitsOk cfg (.idle, { shared := sh }) where
  queries := ⟨by simp, fun _ _ => rfl, fun _ => rfl, fun _ => UInt32.zero_le⟩
  ranks := by simp
  families := by simp [Families]
  visits := ⟨by simp, fun _ _ _ => rfl, fun _ _ => Nat.zero_le _⟩
  charged := by
    refine ⟨fun _ _ => rfl, fun c _ => account_new rfl ?_ rfl⟩
    exact (total_eq_zero fun i t ht => absurd ht (by simp)).le.trans (Nat.zero_le _)

/-- **Every resolution ends within its limits.** -/
theorem run_bounded (hmax : cfg.maxCnameChain < 255) {sh : Shared} {es : List Event}
    (h : Run (Step cfg env) { shared := sh } es w) : Bounded cfg env w := by
  have hw : Wired .idle w := wired_run h (wired_init sh)
  obtain ⟨hqueries, hranks, hfamilies, hvisits, hcharged⟩ : LimitsOk cfg (.idle, w) :=
    run_keeps (fun _ _ hw hab => limits_micro hw hab) h (wired_init sh) (limits_init cfg sh)
  refine ⟨?_, ?_, hvisits.within, ?_, ?_, ?_, ?_, ?_⟩
  · intro c
    rw [show sends w.trace = sends (Phase.idle, w).2.trace from rfl, hqueries.counted c]
    exact hqueries.within c
  · intro i t n j ht hj
    obtain ⟨tj, htj, hbudget, hlength⟩ := descend_family hw hfamilies n i j t ht hj
    have hdepth := (hranks j tj htj).depth
    exact ⟨by omega, tj, htj, hbudget⟩
  · intro c
    by_cases hc : c < w.nextTaskId
    · have hwithin := hcharged.within c hc
      unfold account at hwithin
      dsimp only at hwithin
      omega
    · exact (hcharged.fresh c (not_lt.mp hc)).le.trans (Nat.zero_le _)
  · intro c t ht hclient
    obtain ⟨hbudget, -⟩ := (hranks c t ht).client hclient
    obtain ⟨j, tj, htj, hsame, hwaits, hawaits⟩ :=
      awaits_below hw hfamilies w.nextTaskId c t ht (Nat.le_add_left ..)
    have hlt := wakes_lt hw hcharged htj (hqueries.tasks j tj htj) hwaits
    rw [hsame, hbudget] at hlt
    exact ⟨hbudget, hlt, j, tj, htj, hsame.trans hbudget, hawaits⟩
  · exact fun hcalls _ _ htimer hdue => timer_handled hmax hcalls htimer hdue
  · exact fun hcalls _ _ _ hx hok => completion_handled hmax hcalls hx hok
  · intro c t ht hclient es' w' hrun
    have hstart : Underway c (.idle, w) := .inl ⟨t, ht, hclient⟩
    rcases run_keeps (fun _ _ hw hab => underway_micro hw hab) hrun hw hstart with
      hlive | ⟨_, _, _, hphase⟩ | hfinished
    · exact .inl hlive
    · simp at hphase
    · exact .inr hfinished

theorem run_bounded_asking :
    ∃ w, Run (Step sampleConfig fun _ => 0) sampleStart
        [.resolve ⟨letter 97, RRType.A, kClassIN⟩, .timer 1] w ∧
      (∃ t, w.tasks 1 = some t) ∧ Bounded sampleConfig (fun _ => 0) w := by
  obtain ⟨w, hrun, hlive⟩ := exists_run [.resolve ⟨letter 97, RRType.A, kClassIN⟩, .timer 1]
    (P := fun w => (w.tasks 1).isSome) (by decide +kernel)
  have hrun' : Run (Step sampleConfig fun _ => 0) { shared := sampleStart.shared } _ w := hrun
  exact ⟨w, hrun, Option.isSome_iff_exists.mp hlive, run_bounded (by decide) hrun'⟩

end DNSentinel.Resolver.Termination
