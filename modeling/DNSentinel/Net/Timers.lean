import DNSentinel.Lib.OrderedMaps
import DNSentinel.Lib.Runs
import DNSentinel.Lib.Tables
import Mathlib.Data.List.Perm.Subperm
import Mathlib.Data.Prod.Lex

/-! # Timers of the event loop

`event_loop.cpp`: `add_timer`, `cancel_timer` and `run_due_timers`. A callback may add timers and cancel
any of them, so the loop of `run_due_timers` reads the head of a map that changes under it: a round is a
sequence of steps, with whatever the callbacks do in between. Times are in nanoseconds; callbacks are of
an arbitrary type. -/

namespace DNSentinel.Net.Timers

open Lib.OrderedMaps Lib.Runs Lib.Tables

/-- The deadline, then the id. -/
abbrev TimerKey := ℤ ×ₗ ℕ

namespace TimerKey

def deadline (k : TimerKey) : ℤ := (ofLex k).1

def id (k : TimerKey) : ℕ := (ofLex k).2

theorem lt_iff {k k' : TimerKey} :
    k < k' ↔ k.deadline < k'.deadline ∨ k.deadline = k'.deadline ∧ k.id < k'.id := Prod.Lex.lt_iff

end TimerKey

structure EventLoop (α : Type) where
  nextTimerId : ℕ := 1
  timers : OrderedMap TimerKey α := {}
  timerDeadlines : List (ℕ × ℤ) := []

variable {α : Type}

namespace EventLoop

def addTimer (l : EventLoop α) (now delay : ℤ) (cb : α) : EventLoop α where
  nextTimerId := l.nextTimerId + 1
  timers := l.timers.emplace (toLex (now + delay, l.nextTimerId)) cb
  timerDeadlines := (l.nextTimerId, now + delay) :: l.timerDeadlines

/-- A timer is taken out of both maps. -/
def drop (l : EventLoop α) (k : TimerKey) : EventLoop α :=
  { l with
    timers := l.timers.erase k
    timerDeadlines := l.timerDeadlines.filter fun e => e.1 ≠ k.id }

def cancelTimer (l : EventLoop α) (id : ℕ) : Bool × EventLoop α :=
  match l.timerDeadlines.lookup id with
  | none => (false, l)
  | some deadline => (true, l.drop (toLex (deadline, id)))

/-- What the loop of `run_due_timers` takes out next, if it goes on. -/
def due (l : EventLoop α) (now : ℤ) (newest : ℕ) : Option (TimerKey × α) :=
  l.timers.first.filter fun e => !(decide (now < e.1.deadline) || decide (newest ≤ e.1.id))

end EventLoop

/-! ### Rounds -/

inductive Phase where
  /-- no timer is being run: callbacks of descriptors may be -/
  | idle
  /-- at the head of the loop of `run_due_timers` -/
  | head (now : ℤ) (newest : ℕ)
  /-- a callback is running -/
  | running (now : ℤ) (newest : ℕ)
deriving DecidableEq

/-- What happens in a round. -/
inductive Happened (α : Type) where
  | fired (k : TimerKey) (cb : α)
  | added (k : TimerKey)
  | cancelled (id : ℕ) (result : Bool)
deriving DecidableEq

structure System (α : Type) where
  loop : EventLoop α := {}
  clock : ℤ
  phase : Phase := .idle
  /-- the timers there were when the round began -/
  entry : List TimerKey := []
  /-- what has happened since -/
  trace : List (Happened α) := []

inductive Event (α : Type) where
  | tick (now : ℤ)
  | add (delay : ℤ) (cb : α)
  | cancel (id : ℕ)
  | enter
  | next
  | return
deriving DecidableEq

/-- Timers are added and cancelled by callbacks. Those of timers add with no negative delay. -/
def mayCall : Phase → ℤ → Bool
  | .idle, _ => true
  | .head .., _ => false
  | .running .., delay => decide (0 ≤ delay)

def apply (s : System α) : Event α → Option (System α)
  | .tick now => if s.clock ≤ now then some { s with clock := now } else none
  | .add delay cb =>
    if mayCall s.phase delay then
      some
        { s with
          loop := s.loop.addTimer s.clock delay cb
          trace := s.trace ++ [.added (toLex (s.clock + delay, s.loop.nextTimerId))] }
    else none
  | .cancel id =>
    if mayCall s.phase 0 then
      let (result, loop) := s.loop.cancelTimer id
      some { s with loop, trace := s.trace ++ [.cancelled id result] }
    else none
  | .enter =>
    match s.phase with
    | .idle =>
      some
        { s with
          phase := .head s.clock s.loop.nextTimerId
          entry := s.loop.timers.keys
          trace := [] }
    | _ => none
  | .next =>
    match s.phase with
    | .head now newest =>
      match s.loop.due now newest with
      | none => some { s with phase := .idle }
      | some (k, cb) =>
        some
          { s with
            loop := s.loop.drop k
            phase := .running now newest
            trace := s.trace ++ [.fired k cb] }
    | _ => none
  | .return =>
    match s.phase with
    | .running now newest => some { s with phase := .head now newest }
    | _ => none

/-- **One step.** -/
def Step (s : System α) (e : Event α) (s' : System α) : Prop := apply s e = some s'

/-- The timers that have been fired, in order. -/
def firedIn (trace : List (Happened α)) : List TimerKey :=
  trace.filterMap fun
    | .fired k _ => some k
    | _ => none

/-- The timer was cancelled while only timers before it had been fired. -/
def CancelledEarlier (trace : List (Happened α)) (k : TimerKey) : Prop :=
  ∃ before result after, trace = before ++ .cancelled k.id result :: after ∧
    ∀ k' ∈ firedIn before, k' < k

/-! ### The two maps -/

/-- The maps hold the same timers, and ids are never used again. -/
structure Agree (l : EventLoop α) : Prop where
  same : ∀ id deadline, l.timerDeadlines.lookup id = some deadline ↔
    toLex (deadline, id) ∈ l.timers.keys
  nodup : (keys l.timerDeadlines).Nodup
  below : ∀ k ∈ l.timers.keys, k.id < l.nextTimerId

variable {l : EventLoop α} {k k' : TimerKey} {cb : α} {s s' : System α} {now delay clock : ℤ}
  {newest id : ℕ} {e : Event α} {es : List (Event α)} {trace : List (Happened α)}

theorem agree_init : Agree ({} : EventLoop α) := by
  refine ⟨fun id deadline => ?_, .nil, fun k hk => ?_⟩
  · simp [OrderedMap.keys]
  · simp [OrderedMap.keys] at hk

theorem Agree.lookup (h : Agree l) (hk : k ∈ l.timers.keys) :
    l.timerDeadlines.lookup k.id = some k.deadline := (h.same k.id k.deadline).mpr hk

theorem Agree.id_inj (h : Agree l) (hk : k ∈ l.timers.keys) (hk' : k' ∈ l.timers.keys)
    (hid : k.id = k'.id) : k = k' := by
  have hdeadline := h.lookup hk
  rw [hid, h.lookup hk'] at hdeadline
  have heq : ofLex k = ofLex k' := Prod.ext (Option.some.inj hdeadline).symm hid
  exact heq

theorem Agree.addTimer (h : Agree l) (now delay : ℤ) (cb : α) : Agree (l.addTimer now delay cb) := by
  have hnew : l.nextTimerId ∉ keys l.timerDeadlines := by
    intro hmem
    obtain ⟨⟨id, deadline⟩, he, hid⟩ := List.mem_map.mp hmem
    have hlookup := lookup_of_mem h.nodup he
    have hlt := h.below _ ((h.same id deadline).mp hlookup)
    exact absurd hid hlt.ne
  refine ⟨fun id deadline => ?_, List.nodup_cons.mpr ⟨hnew, h.nodup⟩, fun k hk => ?_⟩
  · unfold EventLoop.addTimer
    rw [OrderedMap.mem_keys_emplace, List.lookup_cons, toLex_inj, Prod.mk.injEq]
    by_cases hid : id = l.nextTimerId
    · subst hid
      have hnone := lookup_eq_none.mpr hnew
      have habsent : toLex (deadline, l.nextTimerId) ∉ l.timers.keys := fun hmem => by
        have hsome := (h.same _ _).mpr hmem
        rw [hnone] at hsome
        cases hsome
      simp [habsent, eq_comm]
    · rw [beq_false_of_ne hid]
      simp [hid, h.same]
  · rcases OrderedMap.mem_keys_emplace.mp hk with rfl | hmem
    · exact Nat.lt_succ_self _
    · exact (h.below k hmem).trans (Nat.lt_succ_self _)

theorem Agree.drop (h : Agree l) (hk : k ∈ l.timers.keys) : Agree (l.drop k) := by
  refine ⟨fun id deadline => ?_, nodup_filter h.nodup _, fun k' hk' => ?_⟩
  · unfold EventLoop.drop
    rw [lookup_filter h.nodup, OrderedMap.mem_keys_erase, Option.filter_eq_some_iff, h.same]
    simp only [decide_eq_true_eq]
    constructor
    · rintro ⟨hmem, hid⟩
      refine ⟨?_, hmem⟩
      rintro rfl
      exact hid rfl
    · rintro ⟨hne, hmem⟩
      exact ⟨hmem, fun hid => hne (h.id_inj hmem hk hid)⟩
  · exact h.below k' (OrderedMap.mem_keys_erase.mp hk').2

theorem cancelTimer_cases (h : Agree l) (id : ℕ) :
    (l.cancelTimer id = (false, l) ∧ ∀ k ∈ l.timers.keys, k.id ≠ id) ∨
    ∃ k ∈ l.timers.keys, k.id = id ∧ l.cancelTimer id = (true, l.drop k) := by
  unfold EventLoop.cancelTimer
  cases hlookup : l.timerDeadlines.lookup id with
  | none =>
    refine .inl ⟨rfl, ?_⟩
    rintro k hk rfl
    rw [h.lookup hk] at hlookup
    cases hlookup
  | some deadline => exact .inr ⟨_, (h.same _ _).mp hlookup, rfl, rfl⟩

theorem due_spec (h : l.due now newest = some (k, cb)) :
    k ∈ l.timers.keys ∧ k.deadline ≤ now ∧ k.id < newest ∧ ∀ k' ∈ l.timers.keys, k ≤ k' := by
  unfold EventLoop.due at h
  rw [Option.filter_eq_some_iff] at h
  obtain ⟨hfirst, hgoes⟩ := h
  simp only [Bool.not_eq_true', Bool.or_eq_false_iff, decide_eq_false_iff_not, not_lt, not_le] at hgoes
  exact ⟨OrderedMap.mem_of_first hfirst, hgoes.1, hgoes.2, fun k' hk' => OrderedMap.first_le hfirst hk'⟩

/-- If the loop stops, every timer is after one that is not due or new. -/
theorem due_none (h : l.due now newest = none) (hk : k ∈ l.timers.keys) :
    ∃ k' ∈ l.timers.keys, k' ≤ k ∧ (now < k'.deadline ∨ newest ≤ k'.id) := by
  unfold EventLoop.due at h
  cases hfirst : l.timers.first with
  | none =>
    rw [OrderedMap.keys_eq_nil hfirst] at hk
    cases hk
  | some e =>
    obtain ⟨k', cb⟩ := e
    rw [hfirst, Option.filter_some] at h
    split_ifs at h with hgoes
    refine ⟨k', OrderedMap.mem_of_first hfirst, OrderedMap.first_le hfirst hk, ?_⟩
    simpa only [Bool.not_eq_true', Bool.or_eq_false_iff, decide_eq_false_iff_not, not_and_or,
      not_not] using hgoes

/-! ### What has happened in a round -/

theorem firedIn_append (trace trace' : List (Happened α)) :
    firedIn (trace ++ trace') = firedIn trace ++ firedIn trace' := List.filterMap_append

theorem cancelledEarlier_snoc {x : Happened α} : CancelledEarlier (trace ++ [x]) k ↔
    CancelledEarlier trace k ∨ (∃ result, x = .cancelled k.id result) ∧ ∀ k' ∈ firedIn trace, k' < k := by
  constructor
  · rintro ⟨before, result, after, heq, hbefore⟩
    rcases List.eq_nil_or_concat' after with rfl | ⟨after, y, rfl⟩
    · obtain ⟨rfl, hx⟩ := List.append_inj' heq rfl
      exact .inr ⟨⟨result, List.singleton_inj.mp hx⟩, hbefore⟩
    · rw [← List.cons_append, ← List.append_assoc] at heq
      obtain ⟨rfl, -⟩ := List.append_inj' heq rfl
      exact .inl ⟨before, result, after, rfl, hbefore⟩
  · rintro (⟨before, result, after, rfl, hbefore⟩ | ⟨⟨result, rfl⟩, hbefore⟩)
    · exact ⟨before, result, after ++ [x], by simp, hbefore⟩
    · exact ⟨trace, result, [], rfl, hbefore⟩

/-- A round that began at `now`, when the next timer had the id `newest`. -/
structure Underway (s : System α) (now : ℤ) (newest : ℕ) : Prop where
  newest_le : newest ≤ s.loop.nextTimerId
  now_le : now ≤ s.clock
  entry : ∀ k ∈ s.entry, k.id < newest
  old : ∀ k ∈ s.loop.timers.keys, k.id < newest → k ∈ s.entry
  new : ∀ k ∈ s.loop.timers.keys, newest ≤ k.id → now ≤ k.deadline
  ordered : (firedIn s.trace).Pairwise (· < ·)
  due : ∀ k ∈ firedIn s.trace, k ∈ s.entry ∧ k.deadline ≤ now
  before : ∀ k ∈ firedIn s.trace, ∀ k' ∈ s.loop.timers.keys, k < k'
  pending : ∀ k ∈ s.loop.timers.keys, k ∈ s.entry → ∀ result, Happened.cancelled k.id result ∉ s.trace
  fired : ∀ k ∈ firedIn s.trace, ¬ CancelledEarlier s.trace k
  gone : ∀ k ∈ s.entry, k ∉ s.loop.timers.keys → k ∈ firedIn s.trace ∨ CancelledEarlier s.trace k
  added : ∀ k, Happened.added k ∈ s.trace → newest ≤ k.id

theorem CancelledEarlier.mem (h : CancelledEarlier trace k) :
    ∃ result, Happened.cancelled k.id result ∈ trace := by
  obtain ⟨before, result, after, rfl, -⟩ := h
  exact ⟨result, by simp⟩

theorem underway_enter (h : Agree l) (clock : ℤ) :
    Underway { loop := l, clock, phase := .head clock l.nextTimerId, entry := l.timers.keys }
      clock l.nextTimerId where
  newest_le := le_rfl
  now_le := le_rfl
  entry := h.below
  old := fun _ hk _ => hk
  new := fun k hk hnew => absurd (h.below k hk) (not_lt.mpr hnew)
  ordered := .nil
  due := fun _ hk => by cases hk
  before := fun _ hk => by cases hk
  pending := fun _ _ _ _ hmem => by cases hmem
  fired := fun _ hk => by cases hk
  gone := fun _ hk hgone => absurd hk hgone
  added := fun _ hmem => by cases hmem

/-- A timer that a callback adds is after every one that has been fired. -/
theorem Underway.add (h : Underway s now newest) (hdelay : 0 ≤ delay) (cb : α) :
    Underway
      { s with
        loop := s.loop.addTimer s.clock delay cb
        trace := s.trace ++ [.added (toLex (s.clock + delay, s.loop.nextTimerId))] } now newest := by
  have hfired : firedIn (s.trace ++ [.added (toLex (s.clock + delay, s.loop.nextTimerId))]) =
      firedIn s.trace := by
    rw [firedIn_append]
    exact List.append_nil _
  have hcancelled (k : TimerKey) :
      CancelledEarlier (s.trace ++ [.added (toLex (s.clock + delay, s.loop.nextTimerId))]) k ↔
        CancelledEarlier s.trace k := by
    rw [cancelledEarlier_snoc]
    simp
  have hkeys (k : TimerKey) : k ∈ (s.loop.addTimer s.clock delay cb).timers.keys ↔
      k = toLex (s.clock + delay, s.loop.nextTimerId) ∨ k ∈ s.loop.timers.keys :=
    OrderedMap.mem_keys_emplace
  have hlate : now ≤ s.clock + delay := by
    have hnow := h.now_le
    omega
  constructor
  · exact h.newest_le.trans (Nat.le_succ _)
  · exact h.now_le
  · exact h.entry
  · intro k hk hold
    rcases (hkeys k).mp hk with rfl | hmem
    · exact absurd hold (not_lt.mpr h.newest_le)
    · exact h.old k hmem hold
  · intro k hk hnew
    rcases (hkeys k).mp hk with rfl | hmem
    · exact hlate
    · exact h.new k hmem hnew
  · rw [hfired]
    exact h.ordered
  · rw [hfired]
    exact h.due
  · rw [hfired]
    intro k hk k' hk'
    rcases (hkeys k').mp hk' with rfl | hmem
    · obtain ⟨hentry, hdue⟩ := h.due k hk
      have hid : k.id < s.loop.nextTimerId := (h.entry k hentry).trans_le h.newest_le
      rw [TimerKey.lt_iff]
      rcases (hdue.trans hlate).lt_or_eq with hlt | heq
      · exact .inl hlt
      · exact .inr ⟨heq, hid⟩
    · exact h.before k hk k' hmem
  · intro k hk hentry result hmem
    rw [List.mem_append] at hmem
    rcases hmem with hmem | hmem
    · rcases (hkeys k).mp hk with rfl | hold
      · exact absurd (h.entry _ hentry) (not_lt.mpr h.newest_le)
      · exact h.pending k hold hentry result hmem
    · simp at hmem
  · rw [hfired]
    exact fun k hk => mt (hcancelled k).mp (h.fired k hk)
  · rw [hfired]
    intro k hk hgone
    rw [hcancelled]
    exact h.gone k hk fun hmem => hgone ((hkeys k).mpr (.inr hmem))
  · intro k hk
    rw [List.mem_append] at hk
    rcases hk with hk | hk
    · exact h.added k hk
    · obtain rfl : k = toLex (s.clock + delay, s.loop.nextTimerId) := by simpa using hk
      exact h.newest_le

/-- A call of `cancel_timer`, whatever its result: no timer with the id is left. -/
theorem Underway.cancel (h : Underway s now newest) {result : Bool}
    (hnext : l.nextTimerId = s.loop.nextTimerId)
    (hkeys : ∀ k, k ∈ l.timers.keys ↔ k ∈ s.loop.timers.keys ∧ k.id ≠ id) :
    Underway { s with loop := l, trace := s.trace ++ [.cancelled id result] } now newest := by
  have hfired : firedIn (s.trace ++ [.cancelled id result]) = firedIn s.trace := by
    rw [firedIn_append]
    exact List.append_nil _
  constructor
  · exact h.newest_le.trans_eq hnext.symm
  · exact h.now_le
  · exact h.entry
  · exact fun k hk => h.old k ((hkeys k).mp hk).1
  · exact fun k hk => h.new k ((hkeys k).mp hk).1
  · rw [hfired]
    exact h.ordered
  · rw [hfired]
    exact h.due
  · rw [hfired]
    exact fun k hk k' hk' => h.before k hk k' ((hkeys k').mp hk').1
  · intro k hk hentry result' hmem
    obtain ⟨hold, hid⟩ := (hkeys k).mp hk
    rw [List.mem_append, List.mem_singleton, Happened.cancelled.injEq] at hmem
    rcases hmem with hmem | ⟨heq, -⟩
    · exact h.pending k hold hentry result' hmem
    · exact hid heq
  · rw [hfired]
    intro k hk hcancelled
    rcases cancelledEarlier_snoc.mp hcancelled with hearlier | ⟨-, hbefore⟩
    · exact h.fired k hk hearlier
    · exact lt_irrefl k (hbefore k hk)
  · rw [hfired]
    intro k hk hgone
    rw [cancelledEarlier_snoc]
    by_cases hold : k ∈ s.loop.timers.keys
    · have hid : k.id = id := by
        by_contra hne
        exact hgone ((hkeys k).mpr ⟨hold, hne⟩)
      exact .inr (.inr ⟨⟨result, by rw [hid]⟩, fun k' hk' => h.before k' hk' k hold⟩)
    · exact (h.gone k hk hold).imp_right .inl
  · intro k hk
    rw [List.mem_append] at hk
    rcases hk with hk | hk
    · exact h.added k hk
    · simp at hk

/-- The loop takes out the first of the timers, and calls it. -/
theorem Underway.fire (h : Underway s now newest) (hdue : s.loop.due now newest = some (k, cb)) :
    Underway
      { s with
        loop := s.loop.drop k
        phase := .running now newest
        trace := s.trace ++ [.fired k cb] } now newest := by
  obtain ⟨hmem, hdeadline, hid, hfirst⟩ := due_spec hdue
  have hentry : k ∈ s.entry := h.old k hmem hid
  have hfired : firedIn (s.trace ++ [.fired k cb]) = firedIn s.trace ++ [k] := firedIn_append _ _
  have hkeys (k' : TimerKey) : k' ∈ (s.loop.drop k).timers.keys ↔ k' ≠ k ∧ k' ∈ s.loop.timers.keys :=
    OrderedMap.mem_keys_erase
  have hcancelled (k' : TimerKey) :
      CancelledEarlier (s.trace ++ [.fired k cb]) k' ↔ CancelledEarlier s.trace k' := by
    rw [cancelledEarlier_snoc]
    simp
  constructor
  · exact h.newest_le
  · exact h.now_le
  · exact h.entry
  · exact fun k' hk' => h.old k' ((hkeys k').mp hk').2
  · exact fun k' hk' => h.new k' ((hkeys k').mp hk').2
  · rw [hfired, List.pairwise_append]
    refine ⟨h.ordered, List.pairwise_singleton _ _, fun k' hk' k'' hk'' => ?_⟩
    obtain rfl := List.mem_singleton.mp hk''
    exact h.before k' hk' k'' hmem
  · rw [hfired]
    intro k' hk'
    rcases List.mem_append.mp hk' with hk' | hk'
    · exact h.due k' hk'
    · obtain rfl := List.mem_singleton.mp hk'
      exact ⟨hentry, hdeadline⟩
  · rw [hfired]
    intro k' hk' k'' hk''
    obtain ⟨hne, hpending⟩ := (hkeys k'').mp hk''
    rcases List.mem_append.mp hk' with hk' | hk'
    · exact h.before k' hk' k'' hpending
    · obtain rfl := List.mem_singleton.mp hk'
      exact lt_of_le_of_ne (hfirst k'' hpending) hne.symm
  · intro k' hk' hold result hmem'
    rw [List.mem_append] at hmem'
    rcases hmem' with hmem' | hmem'
    · exact h.pending k' ((hkeys k').mp hk').2 hold result hmem'
    · simp at hmem'
  · rw [hfired]
    intro k' hk' hearlier
    rw [hcancelled] at hearlier
    rcases List.mem_append.mp hk' with hk' | hk'
    · exact h.fired k' hk' hearlier
    · obtain rfl := List.mem_singleton.mp hk'
      obtain ⟨result, hlogged⟩ := hearlier.mem
      exact h.pending k' hmem hentry result hlogged
  · rw [hfired]
    intro k' hold hgone
    rw [hcancelled, List.mem_append, List.mem_singleton]
    by_cases hk' : k' = k
    · exact .inl (.inr hk')
    · have hpast : k' ∉ s.loop.timers.keys := fun hpending => hgone ((hkeys k').mpr ⟨hk', hpending⟩)
      exact (h.gone k' hold hpast).imp_left .inl
  · intro k' hk'
    rw [List.mem_append] at hk'
    rcases hk' with hk' | hk'
    · exact h.added k' hk'
    · simp at hk'

/-! ### Runs -/

/-- The time read and the newest id, in a round. -/
def Phase.round : Phase → Option (ℤ × ℕ)
  | .idle => none
  | .head now newest => some (now, newest)
  | .running now newest => some (now, newest)

structure Sound (s : System α) : Prop where
  agree : Agree s.loop
  round : ∀ now newest, s.phase.round = some (now, newest) → Underway s now newest

/-- Only what callbacks do depends on the phase. -/
theorem Underway.rephase (h : Underway s now newest) (phase : Phase) :
    Underway { s with phase } now newest :=
  ⟨h.newest_le, h.now_le, h.entry, h.old, h.new, h.ordered, h.due, h.before, h.pending, h.fired,
    h.gone, h.added⟩

theorem Underway.tick (h : Underway s now newest) (hclock : s.clock ≤ clock) :
    Underway { s with clock } now newest :=
  ⟨h.newest_le, h.now_le.trans hclock, h.entry, h.old, h.new, h.ordered, h.due, h.before, h.pending,
    h.fired, h.gone, h.added⟩

theorem sound_step (h : Sound s) (hs : Step s e s') : Sound s' := by
  unfold Step at hs
  cases e with
  | tick now =>
    simp only [apply] at hs
    split_ifs at hs with hclock
    obtain rfl := Option.some.inj hs
    exact ⟨h.agree, fun now newest hround => (h.round now newest hround).tick hclock⟩
  | add delay cb =>
    simp only [apply] at hs
    split_ifs at hs with hmay
    obtain rfl := Option.some.inj hs
    refine ⟨h.agree.addTimer _ _ _, fun now newest hround => ?_⟩
    have hdelay : 0 ≤ delay := by
      cases hphase : s.phase with
      | idle => simp [Phase.round, hphase] at hround
      | head => simp [mayCall, hphase] at hmay
      | running => simpa [mayCall, hphase] using hmay
    exact (h.round now newest hround).add hdelay cb
  | cancel id =>
    simp only [apply] at hs
    split_ifs at hs with hmay
    obtain rfl := Option.some.inj hs
    rcases cancelTimer_cases h.agree id with ⟨heq, hnone⟩ | ⟨k, hk, rfl, heq⟩
    · rw [heq]
      refine ⟨h.agree, fun now newest hround => (h.round now newest hround).cancel rfl fun k => ?_⟩
      exact ⟨fun hk => ⟨hk, hnone k hk⟩, And.left⟩
    · rw [heq]
      refine ⟨h.agree.drop hk, fun now newest hround => (h.round now newest hround).cancel rfl fun k' => ?_⟩
      rw [EventLoop.drop, OrderedMap.mem_keys_erase, and_comm]
      refine and_congr_right fun hk' => not_congr ⟨fun heq => by rw [heq], h.agree.id_inj hk' hk⟩
  | enter =>
    simp only [apply] at hs
    split at hs
    · obtain rfl := Option.some.inj hs
      refine ⟨h.agree, fun now newest hround => ?_⟩
      obtain ⟨rfl, rfl⟩ := Prod.mk.inj (Option.some.inj hround)
      exact underway_enter h.agree s.clock
    · cases hs
  | next =>
    simp only [apply] at hs
    split at hs
    · rename_i now newest hphase
      have hunderway := h.round now newest (by rw [hphase, Phase.round])
      split at hs
      · obtain rfl := Option.some.inj hs
        exact ⟨h.agree, fun now newest hround => by cases hround⟩
      · rename_i k cb hdue
        obtain rfl := Option.some.inj hs
        refine ⟨h.agree.drop (due_spec hdue).1, fun now' newest' hround => ?_⟩
        obtain ⟨rfl, rfl⟩ := Prod.mk.inj (Option.some.inj hround)
        exact hunderway.fire hdue
    · cases hs
  | «return» =>
    simp only [apply] at hs
    split at hs
    · rename_i now newest hphase
      obtain rfl := Option.some.inj hs
      refine ⟨h.agree, fun now' newest' hround => ?_⟩
      exact (h.round now' newest' (by rw [hphase]; exact hround)).rephase _
    · cases hs

theorem sound_run (h : Run Step { clock } es s) : Sound s :=
  h.invariant (P := Sound) (fun _ _ _ hs hstep => sound_step hs hstep)
    ⟨agree_init, fun _ _ hround => by cases hround⟩

/-- What a round has done when it is over. -/
structure RoundDone (entry : List TimerKey) (now : ℤ) (trace : List (Happened α)) : Prop where
  ordered : (firedIn trace).Pairwise (· < ·)
  exact : ∀ k, k ∈ firedIn trace ↔ k ∈ entry ∧ k.deadline ≤ now ∧ ¬ CancelledEarlier trace k
  added : ∀ k, Happened.added k ∈ trace → k ∉ firedIn trace
  bounded : (firedIn trace).length ≤ entry.length

/-- The loop does not stop before a timer that is due: a new one is after it, by its deadline or its id. -/
theorem Underway.none_due (h : Underway s now newest) (hstop : s.loop.due now newest = none)
    (hk : k ∈ s.entry) (hdue : k.deadline ≤ now) : k ∉ s.loop.timers.keys := by
  intro hpending
  obtain ⟨k', hk', hle, hends⟩ := due_none hstop hpending
  have hid := h.entry k hk
  rcases hle.eq_or_lt with rfl | hlt
  · omega
  · rw [TimerKey.lt_iff] at hlt
    by_cases hnew : newest ≤ k'.id
    · have hlate := h.new k' hk' hnew
      omega
    · omega

/-- No timer is fired twice, and none that is not of the entry. -/
theorem Underway.bounded (h : Underway s now newest) : (firedIn s.trace).length ≤ s.entry.length := by
  have hnodup : (firedIn s.trace).Nodup := h.ordered.imp fun hlt => hlt.ne
  exact (List.subperm_of_subset hnodup fun k hk => (h.due k hk).1).length_le

theorem Underway.done (h : Underway s now newest) (hstop : s.loop.due now newest = none) :
    RoundDone s.entry now s.trace := by
  refine ⟨h.ordered, fun k => ⟨fun hk => ?_, ?_⟩, fun k hadded hk => ?_, h.bounded⟩
  · obtain ⟨hentry, hdue⟩ := h.due k hk
    exact ⟨hentry, hdue, h.fired k hk⟩
  · rintro ⟨hentry, hdue, hkept⟩
    exact (h.gone k hentry (h.none_due hstop hentry hdue)).resolve_right hkept
  · have hold := h.entry k (h.due k hk).1
    have hnew := h.added k hadded
    omega

/-- A round does not get stuck: at its head it fires the first timer or ends, and a callback may return.
It fires no more timers than there were, so it ends if every callback returns. -/
structure Proceeds (entry : List TimerKey) (now : ℤ) (newest : ℕ) (s : System α) : Prop where
  bounded : (firedIn s.trace).length ≤ entry.length
  head : s.phase = .head now newest → ∃ s', Step s .next s' ∧ (s'.phase = .idle ∨
    s'.phase = .running now newest ∧ ∃ k cb, s'.trace = s.trace ++ [.fired k cb] ∧
      k ∈ entry ∧ k.deadline ≤ now ∧ k ∈ s.loop.timers.keys ∧ ∀ k' ∈ s.loop.timers.keys, k ≤ k')
  running : s.phase = .running now newest → ∃ s', Step s .return s' ∧ s'.phase = .head now newest
  inside : s.phase = .head now newest ∨ s.phase = .running now newest

theorem Underway.proceeds (h : Underway s now newest) (hround : s.phase.round = some (now, newest)) :
    Proceeds s.entry now newest s := by
  refine ⟨h.bounded, fun hphase => ?_, fun hphase => ?_, ?_⟩
  · simp only [Step, apply, hphase]
    cases hdue : s.loop.due now newest with
    | none => exact ⟨_, rfl, .inl rfl⟩
    | some e =>
      obtain ⟨k, cb⟩ := e
      obtain ⟨hmem, hdeadline, hid, hfirst⟩ := due_spec hdue
      exact ⟨_, rfl, .inr ⟨rfl, k, cb, rfl, h.old k hmem hid, hdeadline, hmem, hfirst⟩⟩
  · simp only [Step, apply, hphase]
    exact ⟨_, rfl, rfl⟩
  · cases hphase : s.phase with
    | idle => simp [hphase, Phase.round] at hround
    | head now' newest' | running now' newest' => simpa [hphase, Phase.round] using hround

/-- A round keeps what it read at its entry. -/
theorem round_step (hs : Step s e s') (hwithin : e ≠ .enter) :
    s'.phase.round = none ∨ s'.phase.round = s.phase.round ∧ s'.entry = s.entry := by
  unfold Step at hs
  cases e with
  | tick now | add delay cb | cancel id =>
    simp only [apply] at hs
    split_ifs at hs
    obtain rfl := Option.some.inj hs
    exact .inr ⟨rfl, rfl⟩
  | enter => exact absurd rfl hwithin
  | next =>
    simp only [apply] at hs
    split at hs
    · rename_i hphase
      split at hs
      · obtain rfl := Option.some.inj hs
        exact .inl rfl
      · obtain rfl := Option.some.inj hs
        rw [hphase]
        exact .inr ⟨rfl, rfl⟩
    · cases hs
  | «return» =>
    simp only [apply] at hs
    split at hs
    · rename_i hphase
      obtain rfl := Option.some.inj hs
      rw [hphase]
      exact .inr ⟨rfl, rfl⟩
    · cases hs

/-- The steps within a round. -/
def Within : System α → Event α → System α → Prop := Restrict Step fun _ e _ => e ≠ .enter

theorem within_round {s₀ s₁ s₂ : System α} (henter : Step s₀ .enter s₁) (h : Run Within s₁ es s₂) :
    s₂.phase.round = none ∨
      s₂.phase.round = some (s₀.clock, s₀.loop.nextTimerId) ∧ s₂.entry = s₀.loop.timers.keys := by
  refine h.invariant (P := fun s => s.phase.round = none ∨
    s.phase.round = some (s₀.clock, s₀.loop.nextTimerId) ∧ s.entry = s₀.loop.timers.keys)
    (fun s e s' hs hstep => ?_) ?_
  · rcases round_step hstep.1 hstep.2 with hover | ⟨hround, hentry⟩
    · exact .inl hover
    · rw [hround, hentry]
      exact hs
  · simp only [Step, apply] at henter
    split at henter
    · obtain rfl := Option.some.inj henter
      exact .inr ⟨rfl, rfl⟩
    · cases henter

theorem next_idle (hs : Step s .next s') (hidle : s'.phase = .idle) :
    ∃ now newest, s.phase = .head now newest ∧ s.loop.due now newest = none ∧ s'.trace = s.trace := by
  simp only [Step, apply] at hs
  split at hs
  · rename_i now newest hphase
    split at hs
    · rename_i hstop
      obtain rfl := Option.some.inj hs
      exact ⟨now, newest, hphase, hstop, rfl⟩
    · obtain rfl := Option.some.inj hs
      cases hidle
  · cases hs

/-- In a round that is not over, what holds in it is about what was read at its entry. -/
theorem within_underway {s₀ s₁ s₂ : System α} (hsound : Sound s₀) (henter : Step s₀ .enter s₁)
    (h : Run Within s₁ es s₂) (hphase : s₂.phase ≠ .idle) :
    s₂.phase.round = some (s₀.clock, s₀.loop.nextTimerId) ∧ s₂.entry = s₀.loop.timers.keys ∧
      Underway s₂ s₀.clock s₀.loop.nextTimerId := by
  have hsound₂ : Sound s₂ := h.of_restrict.invariant (P := Sound)
    (fun _ _ _ hs hstep => sound_step hs hstep) (sound_step hsound henter)
  rcases within_round henter h with hnone | ⟨hround, hentry⟩
  · cases hp : s₂.phase with
    | idle => exact absurd hp hphase
    | head | running => simp [hp, Phase.round] at hnone
  · exact ⟨hround, hentry, hsound₂.round _ _ hround⟩

/-- **Timers fire in order, once, and only when due.** Whatever callbacks do: the two maps hold the same
timers at every moment; `cancel_timer` returns true exactly if the timer is pending; a round, from its
entry to its end, fires in order the timers that there were and that were due at its entry, except those
cancelled before their turn, and none that was added in it; and it comes to that end if its callbacks
return, since at its head it fires the first timer or ends, and it fires no more than there were. -/
theorem timers_fire (h : Run Step { clock } es s) :
    (∀ id deadline, s.loop.timerDeadlines.lookup id = some deadline ↔
      toLex (deadline, id) ∈ s.loop.timers.keys) ∧
    (∀ id s', Step s (.cancel id) s' → ∃ result, s'.trace = s.trace ++ [.cancelled id result] ∧
      (result = true ↔ ∃ k ∈ s.loop.timers.keys, k.id = id)) ∧
    (∀ s₁ es s₂ s₃, Step s .enter s₁ → Run Within s₁ es s₂ → Step s₂ .next s₃ → s₃.phase = .idle →
      RoundDone s.loop.timers.keys s.clock s₃.trace) ∧
    ∀ s₁ es s₂, Step s .enter s₁ → Run Within s₁ es s₂ → s₂.phase ≠ .idle →
      Proceeds s.loop.timers.keys s.clock s.loop.nextTimerId s₂ := by
  have hsound := sound_run h
  refine ⟨hsound.agree.same, fun id s' hs => ?_, fun s₁ es₁ s₂ s₃ henter hrun hnext hidle => ?_,
    fun s₁ es₁ s₂ henter hrun hphase => ?_⟩
  · simp only [Step, apply] at hs
    split_ifs at hs
    obtain rfl := Option.some.inj hs
    refine ⟨_, rfl, ?_⟩
    rcases cancelTimer_cases hsound.agree id with ⟨heq, hnone⟩ | ⟨k, hk, hid, heq⟩
    · rw [heq]
      refine ⟨fun hfalse => (by cases hfalse), ?_⟩
      rintro ⟨k, hk, hid⟩
      exact absurd hid (hnone k hk)
    · rw [heq]
      exact ⟨fun _ => ⟨k, hk, hid⟩, fun _ => rfl⟩
  · obtain ⟨now, newest, hphase, hstop, htrace⟩ := next_idle hnext hidle
    obtain ⟨hread, hentry, hunderway⟩ :=
      within_underway hsound henter hrun (by rw [hphase]; exact fun heq => by cases heq)
    rw [hphase] at hread
    obtain ⟨rfl, rfl⟩ := Prod.mk.inj (Option.some.inj hread)
    have hdone := hunderway.done hstop
    rwa [htrace, ← hentry]
  · obtain ⟨hread, hentry, hunderway⟩ := within_underway hsound henter hrun hphase
    have hproceeds := hunderway.proceeds hread
    rwa [hentry] at hproceeds

/-- Three timers that are due; the callback of the first cancels the third, and adds one without delay. -/
def threeTimers : List (Event ℕ) := [.add 2 0, .add 1 0, .add 2 0, .tick 5]

def firstRound : List (Event ℕ) := [.next, .cancel 3, .add 0 0, .return, .next, .return]

theorem timers_fire_threeTimers : ∃ s s₁ s₂ s₃ : System ℕ, Run Step { clock := 0 } threeTimers s ∧
    Step s .enter s₁ ∧ Run Within s₁ firstRound s₂ ∧ Step s₂ .next s₃ ∧ s₃.phase = .idle ∧
    firedIn s₃.trace = [toLex (1, 2), toLex (2, 1)] ∧
    RoundDone s.loop.timers.keys s.clock s₃.trace ∧
    Proceeds s.loop.timers.keys s.clock s.loop.nextTimerId s₂ := by
  have hcomputed : (Run.applyAll apply { clock := 0 } threeTimers).any (fun s =>
      (apply s .enter).any fun s₁ => (Run.applyAll apply s₁ firstRound).any fun s₂ =>
        (apply s₂ .next).any fun s₃ => s₃.phase == .idle &&
          firedIn s₃.trace == [toLex (1, 2), toLex (2, 1)]) = true := by
    decide +kernel
  obtain ⟨s, hrun, hs⟩ := Run.exists_of_applyAll (fun _ _ _ h => (h : Step _ _ _)) hcomputed
  obtain ⟨s₁, henter, hs₁⟩ := (Option.any_eq_true _ _).1 hs
  obtain ⟨s₂, hround, hs₂⟩ := Run.exists_of_applyAll (fun _ _ _ h => (h : Step _ _ _)) hs₁
  obtain ⟨s₃, hnext, hs₃⟩ := (Option.any_eq_true _ _).1 hs₂
  rw [Bool.and_eq_true, beq_iff_eq, beq_iff_eq] at hs₃
  have hwithin₂ : Run Within s₁ _ s₂ := hround.restrict (by decide)
  obtain ⟨now, newest, hphase, -, -⟩ := next_idle hnext hs₃.1
  obtain ⟨-, -, hdone, hproceeds⟩ := timers_fire hrun
  exact ⟨s, s₁, s₂, s₃, hrun, henter, hwithin₂, hnext, hs₃.1, hs₃.2,
    hdone _ _ _ _ henter hwithin₂ hnext hs₃.1,
    hproceeds _ _ _ henter hwithin₂ (by rw [hphase]; exact fun heq => by cases heq)⟩

end DNSentinel.Net.Timers
