import DNSentinel.Net.EventLoop

/-! # What the loop waits for

`stop` may be called at any moment, also between the reading of `stop_requested_` and `epoll_wait`; the
write to the eventfd makes up for that. The timeout is that of the first timer, rounded up: the loop
neither sleeps past it nor wakes before it. -/

namespace DNSentinel.Net.Waiting

open Lib.OrderedMaps Lib.Runs EventLoop
open Timers (TimerKey)

variable {α β : Type} {s s' : System β α} {e : Event β α} {es es' : List (Event β α)}
  {trace : List (Obs β)} {o : Obs β} {i : ℕ} {clock : ℤ}

/-! ### Requests to stop -/

def isReturned : Obs β → Bool
  | .returned => true
  | _ => false

/-- What has happened since `run` last returned. -/
def sinceReturn (trace : List (Obs β)) : List (Obs β) := trace.takeWhile fun o => !isReturned o

/-- It is about `stop`, or about the end of `run`. -/
def isStop : Obs β → Bool
  | .stopping _ => true
  | .stopped _ => true
  | .returned => true
  | _ => false

/-- The loop has read `stop_requested_` and has yet to look at the eventfd. -/
def awaits : Phase → Bool
  | .planning => true
  | .planned .. => true
  | .waiting .. => true
  | _ => false

theorem sinceReturn_cons (ho : isReturned o = false) :
    sinceReturn (o :: trace) = o :: sinceReturn trace := by
  unfold sinceReturn
  rw [List.takeWhile_cons_of_pos (by rw [ho]; rfl)]

theorem mem_of_sinceReturn (h : o ∈ sinceReturn trace) : o ∈ trace :=
  (List.takeWhile_sublist _).subset h

theorem not_returned_of_not_stop (ho : isStop o = false) : isReturned o = false := by
  cases o with
  | returned => cases ho
  | _ => rfl

def isWait : Event β α → Bool
  | .wait => true
  | _ => false

/-- The waits that are certain to come. -/
def ahead : Phase → ℕ
  | .planning => 1
  | .planned .. => 1
  | _ => 0

theorem ahead_le (p : Phase) : ahead p ≤ 1 := by
  cases p with
  | planning => exact le_rfl
  | planned => exact le_rfl
  | _ => exact Nat.zero_le 1

/-- Nothing is recorded about `stop`. -/
def Unstopped (old new : List (Obs β)) : Prop := new = old ∨ ∃ o, new = o :: old ∧ isStop o = false

/-- A step that has nothing to do with `stop`. -/
structure Ordinary (s : System β α) (e : Event β α) (s' : System β α) : Prop where
  flag : s'.stopRequested = s.stopRequested
  next : s'.nextStop = s.nextStop
  halfway : s'.halfway = s.halfway
  trace : Unstopped s.trace s'.trace
  awaits : awaits s'.phase = true → awaits s.phase = true ∧ s'.wakeups = s.wakeups
  ahead : (isWait e).toNat + ahead s'.phase ≤ ahead s.phase

theorem isWait_of_ne (he : e ≠ .wait) : isWait e = false := by
  cases e with
  | wait => exact absurd rfl he
  | _ => rfl

theorem Ordinary.stay (he : e ≠ .wait) (flag : s'.stopRequested = s.stopRequested)
    (next : s'.nextStop = s.nextStop) (halfway : s'.halfway = s.halfway)
    (trace : Unstopped s.trace s'.trace) (hphase : s'.phase = s.phase)
    (hwakeups : s'.wakeups = s.wakeups) : Ordinary s e s' := by
  refine ⟨flag, next, halfway, trace, fun ha => ⟨hphase ▸ ha, hwakeups⟩, ?_⟩
  rw [isWait_of_ne he, hphase]
  exact (Nat.zero_add _).le

theorem Ordinary.elsewhere (he : e ≠ .wait) (flag : s'.stopRequested = s.stopRequested)
    (next : s'.nextStop = s.nextStop) (halfway : s'.halfway = s.halfway)
    (trace : Unstopped s.trace s'.trace) (ha : Waiting.awaits s'.phase = false) : Ordinary s e s' := by
  refine ⟨flag, next, halfway, trace, fun hawaits => ?_, ?_⟩
  · rw [ha] at hawaits
    cases hawaits
  · rw [isWait_of_ne he]
    cases hphase : s'.phase with
    | planning | planned => simp [hphase, Waiting.awaits] at ha
    | _ => exact Nat.zero_le _

/-- What is about `stop` was there before. -/
theorem Unstopped.mem_iff {old new : List (Obs β)} (h : Unstopped old new) (ho : isStop o = true) :
    o ∈ new ↔ o ∈ old := by
  rcases h with rfl | ⟨o', rfl, ho'⟩
  · exact Iff.rfl
  · rw [List.mem_cons, or_iff_right]
    rintro rfl
    rw [ho] at ho'
    cases ho'

theorem Unstopped.sinceReturn {old new : List (Obs β)} (h : Unstopped old new) :
    Unstopped (sinceReturn old) (sinceReturn new) := by
  rcases h with rfl | ⟨o, rfl, ho⟩
  · exact .inl rfl
  · exact .inr ⟨o, sinceReturn_cons (not_returned_of_not_stop ho), ho⟩

theorem Ordinary.since (h : Ordinary s e s') (ho : isStop o = true) :
    o ∈ sinceReturn s'.trace ↔ o ∈ sinceReturn s.trace := h.trace.sinceReturn.mem_iff ho

theorem addFd_frame (s : System β α) (fd : ℕ) (events : UInt32) (cb : β) (fails : Bool) :
    ∃ fds trace, s.addFd fd events cb fails = { s with fds, trace } ∧ Unstopped s.trace trace := by
  unfold System.addFd
  split
  · exact ⟨_, _, rfl, .inr ⟨_, rfl, rfl⟩⟩
  · exact ⟨_, _, rfl, .inl rfl⟩

theorem removeFd_frame (s : System β α) (fd : ℕ) : ∃ fds trace, s.removeFd fd = { s with fds, trace } ∧
    Unstopped s.trace trace := by
  unfold System.removeFd
  split
  · exact ⟨_, _, rfl, .inl rfl⟩
  · exact ⟨_, _, rfl, .inr ⟨_, rfl, rfl⟩⟩

theorem awaits_inRound (s : System β α) (t : Timers.System α) : awaits (inRound s t).phase = false := by
  unfold inRound
  dsimp only
  split_ifs <;> rfl

theorem step_stop (h : Step s e s') : Ordinary s e s' ∨
    e = .stop ∧ s' = { s with
      stopRequested := true
      nextStop := s.nextStop + 1
      halfway := s.nextStop :: s.halfway }.log (.stopping s.nextStop) ∨
    (∃ i ∈ s.halfway, e = .finishStop i ∧ s' =
      { s with halfway := s.halfway.erase i, wakeups := s.wakeups + 1 }.log (.stopped i)) ∨
    e = .check ∧ s.phase = .head ∧ s' = { s with phase := if s.stopRequested then .leaving else .planning } ∨
    e = .leave ∧ s' = { s with stopRequested := false, phase := .outside }.log .returned := by
  cases move_of_step h with
  | tick now hnow | modifyFd fd events fails | closeFd fd =>
    exact .inl (.stay nofun rfl rfl rfl (.inl rfl) rfl rfl)
  | act et t he hact ht hphase => exact .inl (.stay he rfl rfl rfl (.inl rfl) rfl rfl)
  | addFd fd events cb fails =>
    obtain ⟨fds, trace, heq, htrace⟩ := addFd_frame s fd events cb fails
    rw [heq]
    exact .inl (.stay nofun rfl rfl rfl htrace rfl rfl)
  | removeFd fd =>
    obtain ⟨fds, trace, heq, htrace⟩ := removeFd_frame s fd
    rw [heq]
    exact .inl (.stay nofun rfl rfl rfl htrace rfl rfl)
  | stop => exact .inr (.inl ⟨rfl, rfl⟩)
  | finishStop i hi => exact .inr (.inr (.inl ⟨i, hi, rfl, rfl⟩))
  | run hphase | wake m rest hphase | pass token m rest hphase hnone | returnFd rest hphase =>
    exact .inl (.elsewhere nofun rfl rfl rfl (.inl rfl) rfl)
  | check hphase => exact .inr (.inr (.inr (.inl ⟨rfl, hphase, rfl⟩)))
  | plan hphase | wait read timeout hphase =>
    refine .inl ⟨rfl, rfl, rfl, .inl rfl, fun _ => ⟨?_, rfl⟩, ?_⟩
    · rw [hphase]
      rfl
    · rw [hphase]
      exact le_rfl
  | collect xs events he hphase hcollect hnodup =>
    exact .inl (.elsewhere he rfl rfl rfl (.inr ⟨_, rfl, rfl⟩) rfl)
  | finish t hphase ht | call token m rest w hphase hwake hw =>
    exact .inl (.elsewhere nofun rfl rfl rfl (.inr ⟨_, rfl, rfl⟩) rfl)
  | round et t he ht => exact .inl (.elsewhere he rfl rfl rfl (.inl rfl) (awaits_inRound s t))
  | leave hphase => exact .inr (.inr (.inr (.inr ⟨rfl, rfl⟩)))

/-- The flag is up from a call of `stop` to the end of `run`. A call that is over has left the eventfd
readable for the wait that it may have missed. -/
structure Stops (s : System β α) : Prop where
  flagged : ∀ i, .stopping i ∈ sinceReturn s.trace → s.stopRequested = true
  woken : awaits s.phase = true → ∀ i, .stopping i ∈ sinceReturn s.trace →
    .stopped i ∈ sinceReturn s.trace → 0 < s.wakeups
  begun : ∀ i, .stopped i ∈ s.trace → i < s.nextStop
  halfway : ∀ i ∈ s.halfway, i < s.nextStop

theorem stops_init (t : Timers.System α) : Stops ({ timers := t } : System β α) :=
  ⟨fun _ h => (by cases h), fun h => (by cases h), fun _ h => (by cases h), fun _ h => (by cases h)⟩

theorem stops_step (h : Stops s) (hstep : Step s e s') : Stops s' := by
  rcases step_stop hstep with hord | ⟨-, rfl⟩ | ⟨j, hj, -, rfl⟩ | ⟨-, hhead, rfl⟩ | ⟨-, rfl⟩
  · refine ⟨fun i hi => ?_, fun ha i hi hdone => ?_, fun i hi => ?_, fun i hi => ?_⟩
    · rw [hord.flag]
      exact h.flagged i ((hord.since rfl).mp hi)
    · obtain ⟨hbefore, hsame⟩ := hord.awaits ha
      rw [hsame]
      exact h.woken hbefore i ((hord.since rfl).mp hi) ((hord.since rfl).mp hdone)
    · rw [hord.next]
      exact h.begun i ((hord.trace.mem_iff rfl).mp hi)
    · rw [hord.halfway] at hi
      rw [hord.next]
      exact h.halfway i hi
  · -- a new call has yet to write to the eventfd
    refine ⟨fun i _ => rfl, fun ha i hi hdone => ?_, fun i hi => ?_, fun i hi => ?_⟩
    · dsimp only [System.log] at ha hi hdone ⊢
      rw [sinceReturn_cons rfl] at hi hdone
      have hdone : Obs.stopped i ∈ sinceReturn s.trace := by simpa using hdone
      rcases List.mem_cons.mp hi with heq | hi
      · obtain rfl := Obs.stopping.inj heq
        exact absurd (h.begun _ (mem_of_sinceReturn hdone)) (lt_irrefl _)
      · exact h.woken ha i hi hdone
    · have hi : Obs.stopped i ∈ s.trace := by simpa [System.log] using hi
      exact (h.begun i hi).trans (Nat.lt_succ_self _)
    · rcases List.mem_cons.mp hi with rfl | hi
      · exact Nat.lt_succ_self _
      · exact (h.halfway i hi).trans (Nat.lt_succ_self _)
  · refine ⟨fun i hi => ?_, fun _ _ _ _ => Nat.succ_pos _, fun i hi => ?_, fun i hi => ?_⟩
    · dsimp only [System.log] at hi ⊢
      rw [sinceReturn_cons rfl] at hi
      exact h.flagged i (by simpa using hi)
    · rcases List.mem_cons.mp hi with heq | hi
      · obtain rfl := Obs.stopped.inj heq
        exact h.halfway i hj
      · exact h.begun i hi
    · exact h.halfway i (List.mem_of_mem_erase hi)
  · -- the loop goes on only if no call of `stop` was begun
    refine ⟨h.flagged, fun ha i hi _ => ?_, h.begun, h.halfway⟩
    have hflag := h.flagged i hi
    dsimp only at ha
    rw [hflag, if_pos rfl] at ha
    cases ha
  · refine ⟨fun i hi => ?_, fun ha => ?_, fun i hi => ?_, h.halfway⟩
    · cases hi
    · cases ha
    · exact h.begun i (by simpa [System.log] using hi)

theorem stops_run {t : Timers.System α} (h : Run Step ({ timers := t } : System β α) es s) : Stops s :=
  h.invariant (fun _ _ _ hs hstep => stops_step hs hstep) (stops_init t)

/-- Until `run` returns nothing is forgotten. -/
theorem since_step (h : Step s e s') (he : e ≠ .leave) (ho : isStop o = true)
    (hmem : o ∈ sinceReturn s.trace) : o ∈ sinceReturn s'.trace := by
  rcases step_stop h with hord | ⟨-, rfl⟩ | ⟨j, -, -, rfl⟩ | ⟨-, -, rfl⟩ | ⟨rfl, -⟩
  · exact (hord.since ho).mpr hmem
  · rw [System.log, sinceReturn_cons rfl]
    exact List.mem_cons_of_mem _ hmem
  · rw [System.log, sinceReturn_cons rfl]
    exact List.mem_cons_of_mem _ hmem
  · exact hmem
  · exact absurd rfl he

/-- Once the flag is up no further wait is planned. -/
theorem ahead_step (h : Step s e s') (he : e ≠ .leave) (hflag : s.stopRequested = true) :
    (isWait e).toNat + ahead s'.phase ≤ ahead s.phase := by
  rcases step_stop h with hord | ⟨rfl, rfl⟩ | ⟨j, -, rfl, rfl⟩ | ⟨rfl, -, rfl⟩ | ⟨rfl, -⟩
  · exact hord.ahead
  · exact (Nat.zero_add _).le
  · exact (Nat.zero_add _).le
  · dsimp only
    rw [hflag, if_pos rfl]
    exact Nat.zero_le _
  · exact absurd rfl he

/-- What a run keeps that does not return. -/
theorem ahead_run (h : Run Step s es s') (hs : Stops s) (hleave : .leave ∉ es)
    (hstop : .stopping i ∈ sinceReturn s.trace) :
    Stops s' ∧ es.countP isWait + ahead s'.phase ≤ ahead s.phase ∧
      ∀ o, isStop o = true → o ∈ sinceReturn s.trace → o ∈ sinceReturn s'.trace := by
  induction h with
  | nil s => exact ⟨hs, (Nat.zero_add _).le, fun _ _ hmem => hmem⟩
  | @cons s s₁ s₂ e es hstep hrest ih =>
    obtain ⟨he, hleave⟩ := not_or.mp (mt List.mem_cons.mpr hleave)
    have he : e ≠ .leave := fun heq => he heq.symm
    have hahead := ahead_step hstep he (hs.flagged i hstop)
    obtain ⟨hs', hcount, hkept⟩ := ih (stops_step hs hstep) hleave (since_step hstep he rfl hstop)
    refine ⟨hs', ?_, fun o ho hmem => hkept o ho (since_step hstep he ho hmem)⟩
    have hcons : (e :: es).countP isWait = es.countP isWait + (isWait e).toNat := by
      rw [List.countP_cons]
      cases isWait e <;> rfl
    omega

/-- **No call of `stop` is lost.** Once `stop` has set the flag, and until `run` returns: the loop
leaves when it next comes to its head, and it waits at most once before that. When the call is over, that
wait finds the eventfd readable, however the call fell between the loop's own steps. -/
theorem stop_heeded {t : Timers.System α} (h : Run Step ({ timers := t } : System β α) es s)
    (hstop : .stopping i ∈ sinceReturn s.trace) (h' : Run Step s es' s') (hleave : .leave ∉ es') :
    (s'.phase = .head → apply s' .check = some { s' with phase := .leaving }) ∧
      es'.countP isWait ≤ 1 ∧
      (.stopped i ∈ sinceReturn s.trace → ∀ read called deadline, s'.phase = .waiting read called deadline →
        (apply s' (.ready [(none, kReadable)])).isSome = true) := by
  obtain ⟨hs', hcount, hkept⟩ := ahead_run h' (stops_run h) hleave hstop
  have hstop' := hkept _ rfl hstop
  refine ⟨fun hhead => ?_, ?_, fun hdone read called deadline hphase => ?_⟩
  · simp only [apply]
    rw [if_pos hhead, hs'.flagged i hstop', if_pos rfl]
  · have hle := ahead_le s.phase
    omega
  · have hwoken : 0 < s'.wakeups := by
      refine hs'.woken ?_ i hstop' (hkept _ rfl hdone)
      rw [hphase]
      rfl
    have hcollect : s'.fds.collect s'.wakeups [(none, kReadable)] =
        some [(kWakeToken, kReadable)] := by
      unfold Fds.collect
      rw [if_neg hwoken.ne']
      rfl
    simp only [apply, hphase]
    rw [if_neg (by decide), hcollect]
    rfl

/-- `stop` is called on another thread right after the flag was read. -/
def lateStop : List (Event ℕ ℕ) := [.run, .check, .stop, .plan, .finishStop 0]

theorem stop_heeded_late : ∃ s s' : System ℕ ℕ,
    Run Step ({ timers := { clock := 0 } } : System ℕ ℕ) lateStop s ∧ Run Step s [.wait] s' ∧
      (apply s' (.ready [(none, kReadable)])).isSome = true := by
  have hcomputed : (Run.applyAll apply ({ timers := { clock := 0 } } : System ℕ ℕ) lateStop).any
      (fun s => decide (.stopping 0 ∈ sinceReturn s.trace ∧ .stopped 0 ∈ sinceReturn s.trace) &&
        (Run.applyAll apply s [.wait]).any fun s' => s'.phase == .waiting 0 0 none) = true := by
    decide +kernel
  obtain ⟨s, hrun, hs⟩ := Run.exists_of_applyAll (fun _ _ _ h => h) hcomputed
  obtain ⟨hstopped, hs'⟩ := Bool.and_eq_true_iff.mp hs
  obtain ⟨hstopping, hstopped⟩ := of_decide_eq_true hstopped
  obtain ⟨s', hrun', hphase⟩ := Run.exists_of_applyAll (fun _ _ _ h => h) hs'
  have hheeded := stop_heeded hrun hstopping hrun' (by simp)
  exact ⟨s, s', hrun, hrun', hheeded.2.2 hstopped 0 0 none (beq_iff_eq.mp hphase)⟩

/-! ### Timeouts -/

/-- The timeout is none if there is no timer; else it ends less than a millisecond after the first
timer, and not before it unless that is more than `INT_MAX` milliseconds away. -/
theorem nextTimeoutMs_spec (l : Timers.EventLoop α) (now : ℤ) :
    (l.timers.first = none ∧ nextTimeoutMs l now = -1) ∨
    ∃ k cb, l.timers.first = some (k, cb) ∧ 0 ≤ nextTimeoutMs l now ∧
      now + nextTimeoutMs l now * kMillisecond < max k.deadline now + kMillisecond ∧
      (k.deadline - now ≤ kIntMax * kMillisecond →
        k.deadline ≤ now + nextTimeoutMs l now * kMillisecond) := by
  unfold nextTimeoutMs
  cases hfirst : l.timers.first with
  | none => exact .inl ⟨rfl, rfl⟩
  | some e =>
    obtain ⟨k, cb⟩ := e
    refine .inr ⟨k, cb, rfl, ?_⟩
    dsimp only
    by_cases hdelay : k.deadline - now ≤ 0
    · rw [if_pos hdelay]
      unfold kMillisecond
      omega
    · rw [if_neg hdelay]
      unfold kMillisecond kIntMax
      split_ifs with hrest
      · omega
      · omega

/-- The wait that is under way was planned for the timers there are. -/
structure Waits (s : System β α) : Prop where
  timers : Timers.Sound s.timers
  idle : s.phase ≠ .timers → s.timers.phase = .idle
  planned : ∀ read timeout, s.phase = .planned read timeout →
    read ≤ s.timers.clock ∧ timeout = nextTimeoutMs s.timers.loop read
  waiting : ∀ read called deadline, s.phase = .waiting read called deadline → read ≤ called ∧
    called ≤ s.timers.clock ∧ deadline = waitDeadline (nextTimeoutMs s.timers.loop read) called

theorem waits_init (clock : ℤ) : Waits ({ timers := { clock } } : System β α) :=
  ⟨⟨Timers.agree_init, fun _ _ h => (by cases h)⟩, fun _ => rfl, fun _ _ h => (by cases h),
    fun _ _ _ h => (by cases h)⟩

namespace Waits

theorem elsewhere (ht : Timers.Sound s'.timers) (hidle : s'.phase ≠ .timers → s'.timers.phase = .idle)
    (ha : awaits s'.phase = false) : Waits s' := by
  refine ⟨ht, hidle, fun read timeout hphase => ?_, fun read called deadline hphase => ?_⟩
  · rw [hphase] at ha
    cases ha
  · rw [hphase] at ha
    cases ha

theorem keep (h : Waits s) (ht : s'.timers = s.timers) (hphase : s'.phase = s.phase) : Waits s' := by
  refine ⟨?_, ?_, ?_, ?_⟩
  · rw [ht]
    exact h.timers
  · rw [ht, hphase]
    exact h.idle
  · rw [ht, hphase]
    exact h.planned
  · rw [ht, hphase]
    exact h.waiting

theorem tick (h : Waits s) {now : ℤ} (hnow : s.timers.clock ≤ now) :
    Waits { s with timers := { s.timers with clock := now } } := by
  refine ⟨?_, h.idle, fun read timeout hphase => ?_, fun read called deadline hphase => ?_⟩
  · have hstep : Timers.Step s.timers (.tick now) { s.timers with clock := now } := if_pos hnow
    exact Timers.sound_step h.timers hstep
  · obtain ⟨hread, heq⟩ := h.planned read timeout hphase
    exact ⟨hread.trans hnow, heq⟩
  · obtain ⟨hread, hcalled, heq⟩ := h.waiting read called deadline hphase
    exact ⟨hread, hcalled.trans hnow, heq⟩

/-- The phase changes to one outside the loop's waiting, and the timers do not change. -/
theorem move (h : Waits s) (ht : s'.timers = s.timers) (hfrom : s.phase ≠ .timers)
    (ha : awaits s'.phase = false) : Waits s' := by
  refine elsewhere ?_ (fun _ => ?_) ha
  · rw [ht]
    exact h.timers
  · rw [ht]
    exact h.idle hfrom

end Waits

theorem mayAct_awaits (h : s.mayAct = true) : awaits s.phase = false := by
  cases hphase : s.phase with
  | planning | planned | waiting => simp [System.mayAct, hphase] at h
  | _ => rfl

theorem waits_step (h : Waits s) (hstep : Step s e s') : Waits s' := by
  cases move_of_step hstep with
  | tick now hnow => exact h.tick hnow
  | act et t he hact ht hphase =>
    have ha := mayAct_awaits hact
    refine .elsewhere (Timers.sound_step h.timers ht) (fun hne => ?_) ha
    exact hphase.trans (h.idle hne)
  | addFd fd events cb fails =>
    obtain ⟨fds, trace, heq, -⟩ := addFd_frame s fd events cb fails
    rw [heq]
    exact h.keep rfl rfl
  | modifyFd fd events fails | closeFd fd | stop | finishStop i hi => exact h.keep rfl rfl
  | removeFd fd =>
    obtain ⟨fds, trace, heq, -⟩ := removeFd_frame s fd
    rw [heq]
    exact h.keep rfl rfl
  | run hphase | collect xs events he hphase hcollect hnodup | wake m rest hphase
  | pass token m rest hphase hnone | call token m rest w hphase hwake hw | returnFd rest hphase
  | leave hphase => exact h.move rfl (by rw [hphase]; nofun) rfl
  | check hphase =>
    have hidle := h.idle (by rw [hphase]; nofun)
    refine ⟨h.timers, fun _ => hidle, fun read timeout hplanned => ?_, fun _ _ _ hwaiting => ?_⟩
    · dsimp only at hplanned
      split_ifs at hplanned
    · dsimp only at hwaiting
      split_ifs at hwaiting
  | plan hphase =>
    have hidle := h.idle (by rw [hphase]; nofun)
    refine ⟨h.timers, fun _ => hidle, fun read timeout hplanned => ?_, nofun⟩
    obtain ⟨rfl, rfl⟩ := Phase.planned.inj hplanned
    exact ⟨le_rfl, rfl⟩
  | wait read timeout hphase =>
    have hidle := h.idle (by rw [hphase]; nofun)
    refine ⟨h.timers, fun _ => hidle, nofun, fun _ _ _ hwaiting => ?_⟩
    obtain ⟨hread, rfl⟩ := h.planned read timeout hphase
    obtain ⟨rfl, rfl, rfl⟩ := Phase.waiting.inj hwaiting
    exact ⟨hread, le_rfl, rfl⟩
  | finish t hphase ht => exact .elsewhere (Timers.sound_step h.timers ht) (fun hne => absurd rfl hne) rfl
  | round et t he ht =>
    refine .elsewhere (Timers.sound_step h.timers ht) (fun hne => ?_) (awaits_inRound s t)
    by_contra hidle
    exact hne (if_neg hidle)

theorem waits_run (h : Run Step ({ timers := { clock } } : System β α) es s) : Waits s :=
  h.invariant (fun _ _ _ hs hstep => waits_step hs hstep) (waits_init clock)

/-- A wait that runs out when the first timer is due is followed by its callback. -/
theorem fires_after (h : Waits s) {read called limit : ℤ}
    (hphase : s.phase = .waiting read called (some limit)) (hout : limit ≤ s.timers.clock)
    {k : TimerKey} {cb : α} (hfirst : s.timers.loop.timers.first = some (k, cb))
    (hdue : k.deadline ≤ s.timers.clock) :
    ∃ s', Run Step s [.expire, .dispatch, .nextTimer] s' ∧ s'.timers.trace = [.fired k cb] := by
  have hidle := h.idle (by rw [hphase]; exact Phase.noConfusion)
  have hbelow := h.timers.agree.below k (OrderedMap.mem_of_first hfirst)
  have hgoes : s.timers.loop.due s.timers.clock s.timers.loop.nextTimerId = some (k, cb) := by
    unfold Timers.EventLoop.due
    rw [Option.filter_eq_some_iff]
    refine ⟨hfirst, ?_⟩
    simp only [Bool.not_eq_true', Bool.or_eq_false_iff, decide_eq_false_iff_not, not_lt, not_le]
    exact ⟨hdue, hbelow⟩
  obtain ⟨s₁, h₁, ht₁, hp₁⟩ : ∃ s₁, apply s .expire = some s₁ ∧ s₁.timers = s.timers ∧
      s₁.phase = .batch [] := by
    simp only [apply, hphase]
    rw [if_pos hout]
    exact ⟨_, rfl, rfl, rfl⟩
  obtain ⟨s₂, h₂, ht₂, hp₂⟩ : ∃ s₂, apply s₁ .dispatch = some s₂ ∧ s₂.timers =
      { s.timers with
        phase := .head s.timers.clock s.timers.loop.nextTimerId
        entry := s.timers.loop.timers.keys
        trace := [] } ∧ s₂.phase = .timers := by
    simp only [apply, hp₁, ht₁, Timers.apply, hidle]
    exact ⟨_, rfl, rfl, rfl⟩
  obtain ⟨s₃, h₃, ht₃⟩ : ∃ s₃, apply s₂ .nextTimer = some s₃ ∧ s₃.timers.trace = [.fired k cb] := by
    simp only [apply, hp₂, ht₂, Timers.apply, hgoes]
    exact ⟨_, rfl, rfl⟩
  exact ⟨s₃, .cons h₁ (.cons h₂ (.cons h₃ (.nil _))), ht₃⟩

/-- **The loop sleeps until the first timer, and no longer.** It blocks without a limit only if no timer
is pending. Else the wait ends less than a millisecond after the first timer is due (or after the clock
was read, if it was due then), not counting the time from that reading to the wait. It does not end
before that timer is due unless `INT_MAX` milliseconds are too few, so that a wait that runs out is
followed by the callback and not by another wait. -/
theorem waits_exact (h : Run Step ({ timers := { clock } } : System β α) es s) {read called : ℤ}
    {deadline : Option ℤ} (hphase : s.phase = .waiting read called deadline) :
    read ≤ called ∧ called ≤ s.timers.clock ∧
      (deadline = none ↔ s.timers.loop.timers.keys = []) ∧
      ∀ limit, deadline = some limit → ∃ k cb, s.timers.loop.timers.first = some (k, cb) ∧
        limit < max k.deadline read + kMillisecond + (called - read) ∧
        (k.deadline - read ≤ kIntMax * kMillisecond → k.deadline ≤ limit ∧
          (limit ≤ s.timers.clock → ∃ s', Run Step s [.expire, .dispatch, .nextTimer] s' ∧
            s'.timers.trace = [.fired k cb])) := by
  have hw := waits_run h
  obtain ⟨hread, hcalled, rfl⟩ := hw.waiting read called deadline hphase
  refine ⟨hread, hcalled, ?_⟩
  rcases nextTimeoutMs_spec s.timers.loop read with ⟨hnone, hms⟩ | ⟨k, cb, hfirst, hms, hlate, hearly⟩
  · have hdeadline : waitDeadline (nextTimeoutMs s.timers.loop read) called = none := by
      rw [hms]
      rfl
    rw [hdeadline]
    refine ⟨⟨fun _ => OrderedMap.keys_eq_nil hnone, fun _ => rfl⟩, fun limit heq => ?_⟩
    cases heq
  · have hdeadline : waitDeadline (nextTimeoutMs s.timers.loop read) called =
        some (called + nextTimeoutMs s.timers.loop read * kMillisecond) := if_neg hms.not_gt
    have hmem := OrderedMap.mem_of_first hfirst
    rw [hdeadline] at hphase ⊢
    refine ⟨⟨fun heq => (by cases heq), fun hnil => ?_⟩, fun limit heq => ?_⟩
    · rw [hnil] at hmem
      cases hmem
    · obtain rfl := Option.some.inj heq
      refine ⟨k, cb, hfirst, by omega, fun hcap => ?_⟩
      have hdue := hearly hcap
      refine ⟨by omega, fun hout => ?_⟩
      exact fires_after hw hphase hout hfirst (by omega)

/-- A timer of 1.5 ms, and a wait that begins 0.1 ms after the clock was read for it. -/
def oneTimer : List (Event ℕ ℕ) :=
  [.addTimer 1500000 7, .run, .check, .plan, .tick 100000, .wait, .tick 2100000]

theorem waits_exact_oneTimer : ∃ s s' : System ℕ ℕ,
    Run Step ({ timers := { clock := 0 } } : System ℕ ℕ) oneTimer s ∧
      s.phase = .waiting 0 100000 (some 2100000) ∧
      Run Step s [.expire, .dispatch, .nextTimer] s' ∧
      s'.timers.trace = [.fired (toLex (1500000, 1)) 7] := by
  have hcomputed : (Run.applyAll apply ({ timers := { clock := 0 } } : System ℕ ℕ) oneTimer).any
      (fun s => decide (s.phase = .waiting 0 100000 (some 2100000) ∧ s.timers.clock = 2100000 ∧
        s.timers.loop.timers.first = some (toLex (1500000, 1), 7))) = true := by
    decide +kernel
  obtain ⟨s, hrun, hs⟩ := Run.exists_of_applyAll (fun _ _ _ h => h) hcomputed
  obtain ⟨hphase, hclock, hfirst⟩ := of_decide_eq_true hs
  obtain ⟨k, cb, hk, -, hdue⟩ := (waits_exact hrun hphase).2.2.2 2100000 rfl
  obtain ⟨rfl, rfl⟩ := Prod.mk.inj (Option.some.inj (hfirst.symm.trans hk))
  obtain ⟨s', hrun', hfired⟩ := (hdue (by decide)).2 hclock.ge
  exact ⟨s, s', hrun, hphase, hrun', hfired⟩

end DNSentinel.Net.Waiting
