import DNSentinel.Lib.Pairs
import DNSentinel.Net.Timers

/-! # The event loop

`event_loop.cpp` as a whole: `run` and `stop`, the descriptors that are watched, and the timers of
`Net.Timers`. The kernel's side is what `epoll` is told (`interest`) and the counter of the eventfd that
`stop` writes to. Callbacks may add and remove descriptors and timers, and `stop` may be called on
another thread at any moment, so every point where one of them can come in between is a state of its
own. Times are in nanoseconds; callbacks are of arbitrary types. -/

namespace DNSentinel.Net.EventLoop

open Lib.OrderedMaps Lib.Pairs Lib.Runs
open Timers (TimerKey)

def kWakeToken : ℕ := 0

def kMaxEventsPerWait : ℕ := 64

def kReadable : UInt32 := 1

def kIntMax : ℤ := 2147483647

/-- Nanoseconds in a millisecond. -/
def kMillisecond : ℤ := 1000000

structure Watch (β : Type) where
  fd : ℕ
  cb : β
deriving DecidableEq

/-- An event that `epoll_wait` reports: the token, and what is ready. -/
abbrev Ready := ℕ × UInt32

inductive FdError where
  | fileExists
  | noSuchFile
  /-- `epoll_ctl` failed -/
  | system
deriving Repr, DecidableEq

/-- The descriptors that are watched. -/
structure Fds (β : Type) where
  nextToken : ℕ := 1
  watches : ℕ → Option (Watch β) := fun _ => none
  tokens : ℕ → Option ℕ := fun _ => none
  /-- the kernel's side: the events asked for, and the token -/
  interest : ℕ → Option (UInt32 × ℕ) := fun _ => none

variable {α β : Type}

namespace Fds

/-- `add_fd`; `fails` is a failure of `epoll_ctl` other than for a descriptor that it has. -/
def addFd (f : Fds β) (fd : ℕ) (events : UInt32) (cb : β) (fails : Bool) :
    Option FdError × Fds β :=
  if (f.tokens fd).isSome then (some .fileExists, f)
  else
    let token := f.nextToken
    let f := { f with nextToken := token + 1 }
    if fails || (f.interest fd).isSome then (some .system, f)
    else
      (none,
        { f with
          interest := Function.update f.interest fd (some (events, token))
          watches := Function.update f.watches token (some ⟨fd, cb⟩)
          tokens := Function.update f.tokens fd (some token) })

def modifyFd (f : Fds β) (fd : ℕ) (events : UInt32) (fails : Bool) : Option FdError × Fds β :=
  match f.tokens fd with
  | none => (some .noSuchFile, f)
  | some token =>
    if fails || (f.interest fd).isNone then (some .system, f)
    else (none, { f with interest := Function.update f.interest fd (some (events, token)) })

def removeFd (f : Fds β) (fd : ℕ) : Fds β :=
  match f.tokens fd with
  | none => f
  | some token =>
    { f with
      interest := Function.update f.interest fd none
      watches := Function.update f.watches token none
      tokens := Function.update f.tokens fd none }

/-- A descriptor is closed, which makes the kernel forget it. -/
def closeFd (f : Fds β) (fd : ℕ) : Fds β :=
  { f with interest := Function.update f.interest fd none }

/-- The tokens of descriptors that are ready; without a descriptor, that of the eventfd. -/
def collect (f : Fds β) (wakeups : ℕ) : List (Option ℕ × UInt32) → Option (List Ready)
  | [] => some []
  | (none, events) :: rest =>
    if wakeups = 0 then none else (collect f wakeups rest).map fun ready => (kWakeToken, events) :: ready
  | (some fd, events) :: rest =>
    match f.interest fd with
    | none => none
    | some (_, token) => (collect f wakeups rest).map fun ready => (token, events) :: ready

end Fds

/-- `next_timeout_ms` -/
def nextTimeoutMs (l : Timers.EventLoop α) (now : ℤ) : ℤ :=
  match l.timers.first with
  | none => -1
  | some (k, _) =>
    let delay := k.deadline - now
    if delay ≤ 0 then 0
    else
      -- `std::chrono::ceil`
      let ms := delay / kMillisecond
      let ms := if ms * kMillisecond < delay then ms + 1 else ms
      min ms kIntMax

/-! ### The loop as a system -/

inductive Phase where
  /-- `run` has not been called, or has returned -/
  | outside
  /-- at the head of the loop of `run` -/
  | head
  /-- `stop_requested_` was read, and was not set -/
  | planning
  /-- `next_timeout_ms` has returned, having read the clock at `read` -/
  | planned (read timeout : ℤ)
  /-- in `epoll_wait`, called at `called`, with the time at which it gives up, if it does -/
  | waiting (read called : ℤ) (deadline : Option ℤ)
  /-- in the loop of `dispatch_io` -/
  | batch (events : List Ready)
  /-- in the callback of a descriptor -/
  | callback (rest : List Ready)
  /-- in `run_due_timers` -/
  | timers
  /-- past the loop of `run` -/
  | leaving
deriving DecidableEq

inductive Obs (β : Type) where
  | added (token : ℕ) (w : Watch β)
  | removed (token : ℕ)
  /-- `epoll_wait` returned these events -/
  | collected (events : List Ready)
  | called (token : ℕ) (events : UInt32) (w : Watch β)
  /-- the loop of `dispatch_io` is over -/
  | dispatched
  /-- `stop` has set `stop_requested_` -/
  | stopping (i : ℕ)
  /-- `stop` has written to the eventfd -/
  | stopped (i : ℕ)
  /-- `run` has returned -/
  | returned
deriving DecidableEq

structure System (β α : Type) where
  fds : Fds β := {}
  timers : Timers.System α
  stopRequested : Bool := false
  /-- the counter of the eventfd -/
  wakeups : ℕ := 0
  nextStop : ℕ := 0
  /-- the calls of `stop` that have yet to write to it -/
  halfway : List ℕ := []
  phase : Phase := .outside
  /-- what has happened, newest first -/
  trace : List (Obs β) := []

namespace System

/-- The thread of the loop runs code that may call it: a callback, or what is outside `run`. -/
def mayAct (s : System β α) : Bool :=
  match s.phase, s.timers.phase with
  | .outside, _ => true
  | .callback _, _ => true
  | .timers, .running .. => true
  | _, _ => false

def log (s : System β α) (o : Obs β) : System β α := { s with trace := o :: s.trace }

/-- `add_fd` that worked is recorded. -/
def addFd (s : System β α) (fd : ℕ) (events : UInt32) (cb : β) (fails : Bool) : System β α :=
  match s.fds.addFd fd events cb fails with
  | (none, fds) => { s with fds }.log (.added s.fds.nextToken ⟨fd, cb⟩)
  | (some _, fds) => { s with fds }

def removeFd (s : System β α) (fd : ℕ) : System β α :=
  match s.fds.tokens fd with
  | none => s
  | some token => { s with fds := s.fds.removeFd fd }.log (.removed token)

end System

/-- When `epoll_wait` gives up that is called at `now`. -/
def waitDeadline (timeout now : ℤ) : Option ℤ :=
  if timeout < 0 then none else some (now + timeout * kMillisecond)

inductive Event (β α : Type) where
  | tick (now : ℤ)
  | addTimer (delay : ℤ) (cb : α)
  | cancelTimer (id : ℕ)
  | addFd (fd : ℕ) (events : UInt32) (cb : β) (fails : Bool)
  | modifyFd (fd : ℕ) (events : UInt32) (fails : Bool)
  | removeFd (fd : ℕ)
  | closeFd (fd : ℕ)
  /-- `stop` is called, from any thread -/
  | stop
  | finishStop (i : ℕ)
  | run
  /-- `stop_requested_` is read -/
  | check
  /-- the clock is read for `next_timeout_ms` -/
  | plan
  /-- `epoll_wait` is called -/
  | wait
  | ready (events : List (Option ℕ × UInt32))
  | expire
  /-- EINTR -/
  | interrupt
  | dispatch
  /-- the callback of a descriptor returns -/
  | returnFd
  | nextTimer
  /-- that of a timer does -/
  | returnTimer
  | leave

/-- The round of `run_due_timers` goes on. -/
def inRound (s : System β α) (t : Timers.System α) : System β α :=
  { s with timers := t, phase := if t.phase = .idle then .head else .timers }

/-- An event, if it can happen. -/
def apply (s : System β α) : Event β α → Option (System β α)
  | .tick now => (Timers.apply s.timers (.tick now)).map fun t => { s with timers := t }
  | .addTimer delay cb =>
    if s.mayAct then (Timers.apply s.timers (.add delay cb)).map fun t => { s with timers := t }
    else none
  | .cancelTimer id =>
    if s.mayAct then (Timers.apply s.timers (.cancel id)).map fun t => { s with timers := t } else none
  | .addFd fd events cb fails => if s.mayAct then some (s.addFd fd events cb fails) else none
  | .modifyFd fd events fails =>
    if s.mayAct then some { s with fds := (s.fds.modifyFd fd events fails).2 } else none
  | .removeFd fd => if s.mayAct then some (s.removeFd fd) else none
  | .closeFd fd => if s.mayAct then some { s with fds := s.fds.closeFd fd } else none
  | .stop =>
    some
      ({ s with
        stopRequested := true
        nextStop := s.nextStop + 1
        halfway := s.nextStop :: s.halfway }.log (.stopping s.nextStop))
  | .finishStop i =>
    if i ∈ s.halfway then
      some ({ s with halfway := s.halfway.erase i, wakeups := s.wakeups + 1 }.log (.stopped i))
    else none
  | .run => if s.phase = .outside then some { s with phase := .head } else none
  | .check =>
    if s.phase = .head then
      some { s with phase := if s.stopRequested then .leaving else .planning }
    else none
  | .plan =>
    if s.phase = .planning then
      some { s with phase := .planned s.timers.clock (nextTimeoutMs s.timers.loop s.timers.clock) }
    else none
  | .wait =>
    match s.phase with
    | .planned read timeout =>
      some { s with phase := .waiting read s.timers.clock (waitDeadline timeout s.timers.clock) }
    | _ => none
  | .ready ready =>
    match s.phase with
    | .waiting .. =>
      if ready = [] ∨ kMaxEventsPerWait < ready.length ∨ ¬ (ready.map Prod.fst).Nodup then none
      else
        (s.fds.collect s.wakeups ready).map fun events =>
          { s with phase := .batch events }.log (.collected events)
    | _ => none
  | .expire =>
    match s.phase with
    | .waiting _ _ (some deadline) =>
      if deadline ≤ s.timers.clock then some ({ s with phase := .batch [] }.log (.collected [])) else none
    | _ => none
  | .interrupt =>
    match s.phase with
    | .waiting .. => some ({ s with phase := .batch [] }.log (.collected []))
    | _ => none
  | .dispatch =>
    match s.phase with
    | .batch [] =>
      (Timers.apply s.timers .enter).map fun t =>
        { s with timers := t, phase := .timers }.log .dispatched
    | .batch ((token, events) :: rest) =>
      if token = kWakeToken then some { s with wakeups := 0, phase := .batch rest }
      else
        match s.fds.watches token with
        -- removed earlier in this batch
        | none => some { s with phase := .batch rest }
        | some w => some ({ s with phase := .callback rest }.log (.called token events w))
    | _ => none
  | .returnFd =>
    match s.phase with
    | .callback rest => some { s with phase := .batch rest }
    | _ => none
  | .nextTimer =>
    if s.phase = .timers then (Timers.apply s.timers .next).map (inRound s) else none
  | .returnTimer =>
    if s.phase = .timers then (Timers.apply s.timers .return).map (inRound s) else none
  | .leave =>
    if s.phase = .leaving then
      some ({ s with stopRequested := false, phase := .outside }.log .returned)
    else none

/-- **One step.** -/
def Step (s : System β α) (e : Event β α) (s' : System β α) : Prop := apply s e = some s'

/-! ### What a step can do -/

/-- **The steps there are.** -/
inductive Move (s : System β α) : Event β α → System β α → Prop
  | tick (now : ℤ) (hnow : s.timers.clock ≤ now) :
      Move s (.tick now) { s with timers := { s.timers with clock := now } }
  /-- a timer is added or cancelled -/
  | act {e : Event β α} (et : Timers.Event α) (t : Timers.System α) (he : e ≠ .wait)
      (hact : s.mayAct = true) (ht : Timers.Step s.timers et t) (hphase : t.phase = s.timers.phase) :
      Move s e { s with timers := t }
  | addFd (fd : ℕ) (events : UInt32) (cb : β) (fails : Bool) :
      Move s (.addFd fd events cb fails) (s.addFd fd events cb fails)
  | modifyFd (fd : ℕ) (events : UInt32) (fails : Bool) :
      Move s (.modifyFd fd events fails) { s with fds := (s.fds.modifyFd fd events fails).2 }
  | removeFd (fd : ℕ) : Move s (.removeFd fd) (s.removeFd fd)
  | closeFd (fd : ℕ) : Move s (.closeFd fd) { s with fds := s.fds.closeFd fd }
  | stop : Move s .stop ({ s with
      stopRequested := true
      nextStop := s.nextStop + 1
      halfway := s.nextStop :: s.halfway }.log (.stopping s.nextStop))
  | finishStop (i : ℕ) (hi : i ∈ s.halfway) : Move s (.finishStop i)
      ({ s with halfway := s.halfway.erase i, wakeups := s.wakeups + 1 }.log (.stopped i))
  | run (hphase : s.phase = .outside) : Move s .run { s with phase := .head }
  | check (hphase : s.phase = .head) :
      Move s .check { s with phase := if s.stopRequested then .leaving else .planning }
  | plan (hphase : s.phase = .planning) : Move s .plan
      { s with phase := .planned s.timers.clock (nextTimeoutMs s.timers.loop s.timers.clock) }
  | wait (read timeout : ℤ) (hphase : s.phase = .planned read timeout) : Move s .wait
      { s with phase := .waiting read s.timers.clock (waitDeadline timeout s.timers.clock) }
  /-- `epoll_wait` returns; no event if it was interrupted or ran out -/
  | collect {e : Event β α} {read called : ℤ} {deadline : Option ℤ} (xs : List (Option ℕ × UInt32))
      (events : List Ready) (he : e ≠ .wait) (hphase : s.phase = .waiting read called deadline)
      (hcollect : s.fds.collect s.wakeups xs = some events) (hnodup : (xs.map Prod.fst).Nodup) :
      Move s e ({ s with phase := .batch events }.log (.collected events))
  | finish (t : Timers.System α) (hphase : s.phase = .batch []) (ht : Timers.Step s.timers .enter t) :
      Move s .dispatch ({ s with timers := t, phase := .timers }.log .dispatched)
  | wake (m : UInt32) (rest : List Ready) (hphase : s.phase = .batch ((kWakeToken, m) :: rest)) :
      Move s .dispatch { s with wakeups := 0, phase := .batch rest }
  | pass (token : ℕ) (m : UInt32) (rest : List Ready) (hphase : s.phase = .batch ((token, m) :: rest))
      (hnone : s.fds.watches token = none) : Move s .dispatch { s with phase := .batch rest }
  | call (token : ℕ) (m : UInt32) (rest : List Ready) (w : Watch β)
      (hphase : s.phase = .batch ((token, m) :: rest)) (hwake : token ≠ kWakeToken)
      (hw : s.fds.watches token = some w) :
      Move s .dispatch ({ s with phase := .callback rest }.log (.called token m w))
  | returnFd (rest : List Ready) (hphase : s.phase = .callback rest) :
      Move s .returnFd { s with phase := .batch rest }
  /-- `run_due_timers` goes on -/
  | round {e : Event β α} (et : Timers.Event α) (t : Timers.System α) (he : e ≠ .wait)
      (ht : Timers.Step s.timers et t) : Move s e (inRound s t)
  | leave (hphase : s.phase = .leaving) :
      Move s .leave ({ s with stopRequested := false, phase := .outside }.log .returned)

theorem move_dispatch {s s' : System β α} (h : Step s .dispatch s') : Move s .dispatch s' := by
  simp only [Step, apply] at h
  split at h
  next hphase =>
    obtain ⟨t, ht, rfl⟩ := Option.map_eq_some_iff.mp h
    exact .finish t hphase ht
  next token m rest hphase =>
    by_cases hwake : token = kWakeToken
    · subst hwake
      obtain rfl := Option.some.inj ((if_pos rfl).symm.trans h)
      exact .wake m rest hphase
    · rw [if_neg hwake] at h
      cases hw : s.fds.watches token with
      | none =>
        rw [hw] at h
        obtain rfl := Option.some.inj h
        exact .pass token m rest hphase hw
      | some w =>
        rw [hw] at h
        obtain rfl := Option.some.inj h
        exact .call token m rest w hphase hwake hw
  next => cases h

theorem move_of_step {s s' : System β α} {e : Event β α} (h : Step s e s') : Move s e s' := by
  cases e with
  | tick now =>
    obtain ⟨t, ht, rfl⟩ := Option.map_eq_some_iff.mp h
    obtain ⟨hnow, ht⟩ := Option.ite_none_right_eq_some.mp ht
    obtain rfl := Option.some.inj ht
    exact .tick now hnow
  | addTimer delay cb =>
    obtain ⟨hact, h⟩ := Option.ite_none_right_eq_some.mp h
    obtain ⟨t, ht, rfl⟩ := Option.map_eq_some_iff.mp h
    refine .act (.add delay cb) t nofun hact ht ?_
    obtain ⟨-, ht⟩ := Option.ite_none_right_eq_some.mp ht
    rw [← Option.some.inj ht]
  | cancelTimer id =>
    obtain ⟨hact, h⟩ := Option.ite_none_right_eq_some.mp h
    obtain ⟨t, ht, rfl⟩ := Option.map_eq_some_iff.mp h
    refine .act (.cancel id) t nofun hact ht ?_
    obtain ⟨-, ht⟩ := Option.ite_none_right_eq_some.mp ht
    rw [← Option.some.inj ht]
  | addFd fd events cb fails =>
    obtain ⟨-, h⟩ := Option.ite_none_right_eq_some.mp h
    exact Option.some.inj h ▸ .addFd fd events cb fails
  | modifyFd fd events fails =>
    obtain ⟨-, h⟩ := Option.ite_none_right_eq_some.mp h
    exact Option.some.inj h ▸ .modifyFd fd events fails
  | removeFd fd =>
    obtain ⟨-, h⟩ := Option.ite_none_right_eq_some.mp h
    exact Option.some.inj h ▸ .removeFd fd
  | closeFd fd =>
    obtain ⟨-, h⟩ := Option.ite_none_right_eq_some.mp h
    exact Option.some.inj h ▸ .closeFd fd
  | stop => exact Option.some.inj h ▸ .stop
  | finishStop i =>
    obtain ⟨hi, h⟩ := Option.ite_none_right_eq_some.mp h
    exact Option.some.inj h ▸ .finishStop i hi
  | run =>
    obtain ⟨hphase, h⟩ := Option.ite_none_right_eq_some.mp h
    exact Option.some.inj h ▸ .run hphase
  | check =>
    obtain ⟨hphase, h⟩ := Option.ite_none_right_eq_some.mp h
    exact Option.some.inj h ▸ .check hphase
  | plan =>
    obtain ⟨hphase, h⟩ := Option.ite_none_right_eq_some.mp h
    exact Option.some.inj h ▸ .plan hphase
  | wait =>
    simp only [Step, apply] at h
    split at h
    next read timeout hphase => exact Option.some.inj h ▸ .wait read timeout hphase
    next => cases h
  | ready ready =>
    simp only [Step, apply] at h
    split at h
    next hphase =>
      obtain ⟨hready, h⟩ := Option.ite_none_left_eq_some.mp h
      obtain ⟨events, hcollect, rfl⟩ := Option.map_eq_some_iff.mp h
      rw [not_or, not_or, not_not] at hready
      exact .collect ready events nofun hphase hcollect hready.2.2
    next => cases h
  | expire =>
    simp only [Step, apply] at h
    split at h
    next hphase =>
      obtain ⟨-, h⟩ := Option.ite_none_right_eq_some.mp h
      exact Option.some.inj h ▸ .collect [] [] nofun hphase rfl .nil
    next => cases h
  | interrupt =>
    simp only [Step, apply] at h
    split at h
    next hphase => exact Option.some.inj h ▸ .collect [] [] nofun hphase rfl .nil
    next => cases h
  | dispatch => exact move_dispatch h
  | returnFd =>
    simp only [Step, apply] at h
    split at h
    next rest hphase => exact Option.some.inj h ▸ .returnFd rest hphase
    next => cases h
  | nextTimer =>
    obtain ⟨-, h⟩ := Option.ite_none_right_eq_some.mp h
    obtain ⟨t, ht, rfl⟩ := Option.map_eq_some_iff.mp h
    exact .round .next t nofun ht
  | returnTimer =>
    obtain ⟨-, h⟩ := Option.ite_none_right_eq_some.mp h
    obtain ⟨t, ht, rfl⟩ := Option.map_eq_some_iff.mp h
    exact .round .return t nofun ht
  | leave =>
    obtain ⟨hphase, h⟩ := Option.ite_none_right_eq_some.mp h
    exact Option.some.inj h ▸ .leave hphase

end DNSentinel.Net.EventLoop
