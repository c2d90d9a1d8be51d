import DNSentinel.Resolver.Events

/-! # How often a server is asked

During one visit of a task to a zone a server gets its first query, one more for each round that is
given to servers that timed out, and one more if it answered in another letter case; each of these
may be followed by one query over TCP. A server that was given up is not asked again. What is counted
are the queries recorded for the task and the visit (`queries`); the invariant is `Tally`. -/

namespace DNSentinel.Resolver.Retries

open DNSentinel.Types Lib.Pairs Lib.Runs Selection Data Resolver.Core Machine Turns Effects Visits
open Phases Wiring Events

/-! ### What was asked in a visit -/

def queryOf (id v : ℕ) : Obs → Option (Address × UpstreamTransport)
  | .sent i u _ server transport _ => if i = id ∧ u = v then some (server, transport) else none
  | _ => none

/-- The queries that task `id` sent during its visit `v`, the latest first. -/
def queries (id v : ℕ) (trace : List Obs) : List (Address × UpstreamTransport) :=
  trace.filterMap (queryOf id v)

def mismatchOf (id v : ℕ) : Obs → Option Address
  | .mismatch i u server => if i = id ∧ u = v then some server else none
  | _ => none

/-- The servers that answered task `id` in another letter case during its visit `v`. -/
def mismatches (id v : ℕ) (trace : List Obs) : List Address := trace.filterMap (mismatchOf id v)

theorem queries_sent (id v i u budget : ℕ) (server : Address) (transport : UpstreamTransport)
    (q : Question) (trace : List Obs) :
    queries id v (.sent i u budget server transport q :: trace) =
      if i = id ∧ u = v then (server, transport) :: queries id v trace else queries id v trace := by
  unfold queries
  rw [List.filterMap_cons]
  by_cases h : i = id ∧ u = v
  · simp only [queryOf, if_pos h]
  · simp only [queryOf, if_neg h]

/-! ### One visit -/

/-- The servers of a visit against the queries `qs` sent and the letter case mismatches `ms` seen in
it: every query over UDP is the last one the server got, or was followed by a new round or a
mismatch. -/
structure Tally (qs : List (Address × UpstreamTransport)) (ms : List Address) (v : Visit) : Prop where
  nodup : v.tried.Nodup
  timedOut : v.timedOut ⊆ v.tried
  known : v.tried ⊆ v.servers
  rounds : v.retryRounds ≤ kMaxRetryRounds
  udp : ∀ a, qs.count (a, .udp) ≤ ms.count a + v.retryRounds.toNat + v.tried.count a

/-- A query may be sent to the server: it is untried, or its last query was over UDP. -/
def Sendable (qs : List (Address × UpstreamTransport)) (v : Visit) (address : Address) :
    UpstreamTransport → Prop
  | .udp => address ∈ v.servers ∧ address ∉ v.tried
  | .tcp => address ∈ v.tried ∧ address ∉ v.timedOut ∧ qs.head? = some (address, .udp)

variable {qs : List (Address × UpstreamTransport)} {ms : List Address} {v v' : Visit} {next : Next}
  {address : Address} {transport : UpstreamTransport} {t : Task}

theorem tally_fresh (hv : v.Fresh) : Tally [] [] v where
  nodup := by simp [hv.tried]
  timedOut := by simp [hv.timedOut]
  known := by simp [hv.tried]
  rounds := by simp [hv.retryRounds]
  udp a := by simp

theorem Tally.servers (h : Tally qs ms v) {servers : List Address} (hsub : v.servers ⊆ servers) :
    Tally qs ms { v with servers } where
  __ := h
  known := List.Subset.trans h.known hsub

theorem toNat_nextRound {n : UInt8} (h : n < kMaxRetryRounds) : (n + 1).toNat = n.toNat + 1 := by
  have hlt : n.toNat < 2 := UInt8.lt_iff_toNat_lt.mp h
  rw [UInt8.toNat_add]
  show (n.toNat + 1) % 256 = _
  omega

theorem Tally.again (h : Tally qs ms v) (hrounds : v.retryRounds < kMaxRetryRounds) :
    Tally qs ms v.again where
  nodup := h.nodup.filter _
  timedOut := by simp [Visit.again]
  known := fun a ha => h.known (List.mem_of_mem_filter ha)
  rounds := by
    show v.retryRounds + 1 ≤ kMaxRetryRounds
    rw [UInt8.le_iff_toNat_le, toNat_nextRound hrounds]
    exact UInt8.lt_iff_toNat_lt.mp hrounds
  udp a := by
    have hudp := h.udp a
    show _ ≤ _ + (v.retryRounds + 1).toNat +
      (v.tried.filter fun s => !v.timedOut.contains s).count a
    rw [toNat_nextRound hrounds]
    by_cases ha : a ∈ v.timedOut
    · -- it gets its next query out of the new round
      have hone := List.nodup_iff_count_le_one.mp h.nodup a
      omega
    · have hsame : (v.tried.filter fun s => !v.timedOut.contains s).count a = v.tried.count a :=
        List.count_filter (by simpa using ha)
      omega

theorem Tally.sought (h : Tally qs ms v) (hsought : Sought v v' next) :
    Tally qs ms v' ∧ ∀ a tr, next = .sendQuery a tr → Sendable qs v' a tr := by
  induction hsought with
  | ask hserver hnew =>
    refine ⟨h, ?_⟩
    rintro a tr ⟨⟩
    exact ⟨hserver, hnew⟩
  | spawn q ancestry | finish result => exact ⟨h, fun _ _ hnext => absurd hnext (by simp)⟩
  | again hrounds _ ih => exact ih (h.again hrounds)

/-- What `send_query` does to the visit. -/
def Visit.sent (v : Visit) (address : Address) (transport : UpstreamTransport) : Visit :=
  { v with tried := if transport == .tcp then v.tried else v.tried ++ [address] }

theorem Tally.sent (h : Tally qs ms v) (hsend : Sendable qs v address transport) :
    Tally ((address, transport) :: qs) ms (Visit.sent v address transport) := by
  cases transport with
  | tcp =>
    refine ⟨h.nodup, h.timedOut, h.known, h.rounds, fun a => ?_⟩
    rw [List.count_cons_of_ne (by simp)]
    exact h.udp a
  | udp =>
    obtain ⟨hserver, hnew⟩ := hsend
    refine ⟨?_, fun a ha => List.mem_append_left _ (h.timedOut ha), ?_, h.rounds, fun a => ?_⟩
    · exact List.nodup_append.mpr ⟨h.nodup, List.nodup_singleton _, fun a ha b hb hab =>
        hnew (List.mem_singleton.mp hb ▸ hab ▸ ha)⟩
    · intro a ha
      rcases List.mem_append.mp ha with ha | ha
      · exact h.known ha
      · exact List.mem_singleton.mp ha ▸ hserver
    · have hudp := h.udp a
      show _ ≤ _ + v.retryRounds.toNat + (v.tried ++ [address]).count a
      rw [List.count_append, List.count_cons, List.count_cons, List.count_nil]
      by_cases ha : address = a
      · simp only [ha, beq_self_eq_true, if_true]
        omega
      · simp only [Prod.mk.injEq, ha, false_and, beq_iff_eq, if_false]
        omega

/-- The task has a query in flight, or its completion is being handled. -/
structure Engaged (qs : List (Address × UpstreamTransport)) (t : Task) : Prop where
  tried : t.asked ∈ t.tried
  waited : t.asked ∉ t.timedOut
  last : qs.head? = some (t.asked, if t.overTcp then .tcp else .udp)

/-- What is known of a query that completed. -/
structure Woken (qs : List (Address × UpstreamTransport)) (ms : List Address) (t : Task)
    (result : Except UpstreamError Message) : Prop where
  engaged : Engaged qs t
  spoofed : result = .error .spoofSuspected → t.overTcp = false
  recased : result = .error .caseMismatch →
    qs.count (t.asked, .udp) ≤ ms.count t.asked + t.retryRounds.toNat

theorem Engaged.sendable (h : Engaged qs t) (hudp : t.overTcp = false) :
    Sendable qs (visit t) t.asked .tcp := by
  refine ⟨h.tried, h.waited, ?_⟩
  rw [h.last, hudp]
  rfl

/-- **A completed query** leaves the visit in order, as long as it does not begin a new one. -/
theorem Tally.replied {result : Except UpstreamError Message} {no0x20 : List Address}
    (h : Tally qs ms (visit t)) (hwoken : Woken qs ms t result)
    (hreplied : Replied t no0x20 result v' next) :
    (∃ u : Visit, t.visits < u.number ∧ u.Fresh ∧ Sought u v' next) ∨
      v'.number = t.visits ∧ Tally qs ms v' ∧
        ∀ a tr, next = .sendQuery a tr → Sendable qs v' a tr := by
  have hengaged := hwoken.engaged
  have hsought {u : Visit} (hu : Tally qs ms u) (hnumber : u.number = t.visits)
      (hs : Sought u v' next) : v'.number = t.visits ∧ Tally qs ms v' ∧
        ∀ a tr, next = .sendQuery a tr → Sendable qs v' a tr :=
    ⟨(sought_number hs).1.trans hnumber, hu.sought hs⟩
  cases hreplied with
  | spoofed =>
    refine .inr ⟨rfl, h, ?_⟩
    rintro a tr ⟨⟩
    exact hengaged.sendable (hwoken.spoofed rfl)
  | truncated _ hudp =>
    refine .inr ⟨rfl, h, ?_⟩
    rintro a tr ⟨⟩
    exact hengaged.sendable hudp
  | recased _ =>
    refine .inr ⟨rfl, ⟨h.nodup.filter _, fun a ha => ?_, ?_, h.rounds, fun a => ?_⟩, ?_⟩
    · have hne : a ≠ t.asked := fun heq => hengaged.waited (heq ▸ ha)
      exact List.mem_filter.mpr ⟨h.timedOut ha, by simpa using hne⟩
    · exact fun a ha => h.known (List.mem_of_mem_filter ha)
    · by_cases ha : a = t.asked
      · have hagain := hwoken.recased rfl
        subst ha
        exact hagain.trans (Nat.le_add_right _ _)
      · have hsame : (t.tried.filter fun s => s != t.asked).count a = t.tried.count a :=
          List.count_filter (by simpa using ha)
        show _ ≤ _ + _ + (t.tried.filter fun s => s != t.asked).count a
        rw [hsame]
        exact h.udp a
    · rintro a tr ⟨⟩
      exact ⟨h.known hengaged.tried, by simp⟩
  | timedOut hs =>
    have hsub : t.timedOut ++ [t.asked] ⊆ t.tried := by
      intro a ha
      rcases List.mem_append.mp ha with ha | ha
      · exact h.timedOut ha
      · exact List.mem_singleton.mp ha ▸ hengaged.tried
    have htally : Tally qs ms { visit t with timedOut := t.timedOut ++ [t.asked] } :=
      ⟨h.nodup, hsub, h.known, h.rounds, h.udp⟩
    exact .inr (hsought htally rfl hs)
  | gaveUp _ hs => exact .inr (hsought h rfl hs)
  | used _ hs =>
    rcases hs with ⟨rfl, result, rfl⟩ | hs
    · exact .inr ⟨rfl, h, fun _ _ hnext => absurd hnext (by simp)⟩
    · exact .inl hs

/-! ### Every visit -/

/-- Every query over TCP comes right after one over UDP to the same server. -/
def Paired (qs : List (Address × UpstreamTransport)) : Prop :=
  ∀ newer a older, qs = newer ++ (a, .tcp) :: older → ∃ rest, older = (a, .udp) :: rest

theorem Paired.cons (h : Paired qs) (hlast : transport = .tcp → qs.head? = some (address, .udp)) :
    Paired ((address, transport) :: qs) := by
  intro newer a older heq
  cases newer with
  | nil =>
    obtain ⟨hfirst, rfl⟩ := List.cons.inj heq
    obtain ⟨rfl, rfl⟩ := Prod.mk.inj hfirst
    exact List.head?_eq_some_iff.mp (hlast rfl)
  | cons q newer => exact h newer a older (List.cons.inj heq).2

/-- So there are no more queries over TCP than over UDP. -/
theorem Paired.tcp_le : ∀ {qs : List (Address × UpstreamTransport)}, Paired qs → ∀ a,
    qs.count (a, .tcp) + (if qs.head? = some (a, .udp) then 1 else 0) ≤ qs.count (a, .udp)
  | [], _, a => by simp
  | (b, .udp) :: rest, h, a => by
    have hrest : Paired rest := fun newer x older heq => h ((b, .udp) :: newer) x older (by rw [heq]; rfl)
    have ih := hrest.tcp_le a
    rw [List.count_cons_of_ne (by simp), List.count_cons, List.head?_cons]
    by_cases hb : b = a
    · simp only [hb, beq_self_eq_true, if_true]
      omega
    · simp only [Prod.mk.injEq, Option.some.injEq, beq_iff_eq, hb, false_and, if_false]
      omega
  | (b, .tcp) :: rest, h, a => by
    have hrest : Paired rest := fun newer x older heq => h ((b, .tcp) :: newer) x older (by rw [heq]; rfl)
    have hlast : rest.head? = some (b, .udp) := List.head?_eq_some_iff.mpr (h [] b rest rfl)
    have ih := hrest.tcp_le a
    rw [hlast] at ih
    rw [List.count_cons, List.count_cons_of_ne (by simp), List.head?_cons]
    by_cases hb : b = a
    · simp only [hb, beq_self_eq_true, if_true] at ih ⊢
      simp only [Option.some.injEq, Prod.mk.injEq, reduceCtorEq, and_false, if_false]
      omega
    · simp only [Prod.mk.injEq, Option.some.injEq, beq_iff_eq, hb, false_and, if_false] at ih ⊢
      omega

/-- The bounds for one visit. -/
structure Bounded (qs : List (Address × UpstreamTransport)) (ms : List Address) : Prop where
  recased : ∀ a, ms.count a ≤ 1
  udp : ∀ a, qs.count (a, .udp) ≤ 1 + kMaxRetryRounds.toNat + ms.count a
  tcp : Paired qs

theorem Tally.udp_le (h : Tally qs ms v) (a : Address) :
    qs.count (a, .udp) ≤ 1 + kMaxRetryRounds.toNat + ms.count a := by
  have hudp := h.udp a
  have hrounds := UInt8.le_iff_toNat_le.mp h.rounds
  have hone := List.nodup_iff_count_le_one.mp h.nodup a
  omega

/-- What is recorded of a task is in order. -/
structure TaskTally (trace : List Obs) (i : ℕ) (t : Task) : Prop where
  tally : Tally (queries i t.visits trace) (mismatches i t.visits trace) (visit t)
  later : ∀ v, t.visits < v → queries i v trace = [] ∧ mismatches i v trace = []
  engaged : t.upstream.isSome = true → Engaged (queries i t.visits trace) t
  cased : t.upstream.isSome = true → t.sent0x20 = true → t.asked ∉ mismatches i t.visits trace

/-- A letter case mismatch is being handled. -/
def Handling (s : Phase × World) (i : ℕ) (a : Address) : Prop :=
  ∃ src t, s.1 = .running i (.upstream (.error .caseMismatch) src) ∧ s.2.tasks i = some t ∧
    t.asked = a

/-- **The invariant.** -/
structure Tallied (s : Phase × World) : Prop where
  tasks : ∀ i t, s.2.tasks i = some t → TaskTally s.2.trace i t
  woken : ∀ i result src t, s.1 = .running i (.upstream result src) → s.2.tasks i = some t →
    Woken (queries i t.visits s.2.trace) (mismatches i t.visits s.2.trace) t result
  marked : ∀ i v, ∀ a ∈ mismatches i v s.2.trace, a ∈ s.2.shared.no0x20 ∨ Handling s i a
  unborn : ∀ i, s.2.nextTaskId ≤ i → ∀ v,
    queries i v s.2.trace = [] ∧ mismatches i v s.2.trace = []
  bounded : ∀ i v, Bounded (queries i v s.2.trace) (mismatches i v s.2.trace)

/-! ### What a change does -/

/-- Whom a task has asked. -/
def dealings (t : Task) := (visit t, t.asked, t.overTcp, t.sent0x20)

/-- A task that was just made. -/
def Newborn (t : Task) : Prop := visit t = ⟨0, [], [], [], 0⟩ ∧ t.upstream = none

/-- A change that asks no server and hears from none. -/
structure Quiet (a b : Phase × World) : Prop where
  tasks : ∀ i u, b.2.tasks i = some u →
    (∃ t, a.2.tasks i = some t ∧ dealings u = dealings t ∧ u.upstream = t.upstream) ∨
      i = a.2.nextTaskId ∧ Newborn u
  queries : ∀ i v, queries i v b.2.trace = queries i v a.2.trace
  mismatches : ∀ i v, mismatches i v b.2.trace = mismatches i v a.2.trace
  no0x20 : b.2.shared.no0x20 = a.2.shared.no0x20
  nextTaskId : a.2.nextTaskId ≤ b.2.nextTaskId
  before : ∀ i result src, a.1 ≠ .running i (.upstream result src)
  after : ∀ i result src, b.1 ≠ .running i (.upstream result src)

/-- The end of a step of task `id`, with the query it sent. -/
structure Turned (id : ℕ) (turn : Turn) (sent : Option (Address × UpstreamTransport))
    (a b : Phase × World) : Prop where
  own : ∃ u, b.2.tasks id = some u ∧
    match sent with
    | some (address, transport) =>
      turn.2.2 = .sendQuery address transport ∧
        visit u = Visit.sent (visit turn.2.1) address transport ∧ u.asked = address ∧
        u.overTcp = (transport == .tcp) ∧ (u.sent0x20 = true → address ∉ turn.1.no0x20)
    | none => visit u = visit turn.2.1 ∧ u.upstream = none
  others : ∀ i u, i ≠ id → b.2.tasks i = some u →
    a.2.tasks i = some u ∨ i = a.2.nextTaskId ∧ Newborn u
  queries : ∀ i v, queries i v b.2.trace =
    if id = i ∧ turn.2.1.visits = v then sent.toList ++ queries i v a.2.trace
    else queries i v a.2.trace
  mismatches : ∀ i v, mismatches i v b.2.trace = mismatches i v a.2.trace
  no0x20 : b.2.shared.no0x20 = turn.1.no0x20
  nextTaskId : a.2.nextTaskId ≤ b.2.nextTaskId
  after : ∀ i result src, b.1 ≠ .running i (.upstream result src)

/-- A query of task `p.task` completes. -/
structure Completed (cfg : Config) (p : Pending) (t : Task) (result : Except UpstreamError Message)
    (a b : Phase × World) : Prop where
  pending : ∃ qid, a.2.pending qid = some p
  allowed : allowed cfg a.2.shared.now p result = true
  task : a.2.tasks p.task = some t
  phase : b.1 = .running p.task (.upstream result (sourceOf t result))
  tasks : b.2.tasks = Function.update a.2.tasks p.task (some { t with upstream := none })
  trace : b.2.trace = completion cfg t p result ++ .wake p.task t.budget :: a.2.trace
  shared : b.2.shared = a.2.shared
  nextTaskId : b.2.nextTaskId = a.2.nextTaskId
  before : ∀ i result src, a.1 ≠ .running i (.upstream result src)

variable {cfg : Config} {env : Random} {a b : Phase × World}

theorem Quiet.put {id : ℕ} {t u : Task} (ht : a.2.tasks id = some t)
    (hb : b.2.tasks = Function.update a.2.tasks id (some u)) (hu : dealings u = dealings t)
    (hup : u.upstream = t.upstream) : ∀ i x, b.2.tasks i = some x →
      (∃ t, a.2.tasks i = some t ∧ dealings x = dealings t ∧ x.upstream = t.upstream) ∨
        i = a.2.nextTaskId ∧ Newborn x := by
  intro i x hx
  rw [hb] at hx
  rcases update_some hx with ⟨rfl, rfl⟩ | ⟨-, hx⟩
  · exact .inl ⟨t, ht, hu, hup⟩
  · exact .inl ⟨x, hx, rfl, rfl⟩

/-- A task that is running has no query in flight, and a step sends none before its last call. -/
theorem stays {id : ℕ} {wake : Wake} {w : World} {t₀ t : Task} {sh : Shared}
    (hw : Wired (.running id wake) w) (ht : w.tasks id = some t₀)
    (hstep : StepOk cfg wake w.shared t₀ (sh, t, next)) : t.upstream = none := by
  obtain ⟨t', ht', hzero⟩ := hw.phase
  obtain rfl : t' = t₀ := Option.some.inj (ht'.symm.trans ht)
  exact (congrArg Life.upstream (turn_life hstep.ok)).trans (wakeUps_eq_zero hzero).2.1

theorem turned_put {id : ℕ} {wake : Wake} {w : World} {t₀ t : Task} {sh : Shared} {p : Phase}
    (hw : Wired (.running id wake) w) (ht : w.tasks id = some t₀)
    (hstep : StepOk cfg wake w.shared t₀ (sh, t, next))
    (hp : ∀ i result src, p ≠ .running i (.upstream result src)) :
    Turned id (sh, t, next) none (.running id wake, w) (p, { w with shared := sh }.putTask id t) where
  own := ⟨t, Function.update_self .., rfl, stays hw ht hstep⟩
  others _ _ hne hy := .inl ((Function.update_of_ne hne ..).symm.trans hy)
  queries _ _ := (ite_self _).symm
  mismatches _ _ := rfl
  no0x20 := rfl
  nextTaskId := le_rfl
  after := hp

/-- **What a change is**, as far as servers are concerned. -/
theorem micro_cases (hw : Wired a.1 a.2) (hab : Micro cfg env a b) :
    Quiet a b ∨ (∃ p t result, Completed cfg p t result a b) ∨
      ∃ id wake t₀ turn sent, a.1 = .running id wake ∧ a.2.tasks id = some t₀ ∧
        StepOk cfg wake a.2.shared t₀ turn ∧ Turned id turn sent a b := by
  cases hab
  case join ht | start ht | deadline ht | wakeParent ht =>
    exact .inl ⟨Quiet.put ht rfl rfl rfl, fun _ _ => rfl, fun _ _ => rfl, rfl, le_rfl, by simp, by simp⟩
  case call | answer =>
    exact .inl ⟨fun _ x hx => .inl ⟨x, hx, rfl, rfl⟩, fun _ _ => rfl, fun _ _ => rfl, rfl, le_rfl,
      by simp, by simp⟩
  case drop | dropChild =>
    exact .inl ⟨fun _ x hx => .inl ⟨x, (update_none hx).2, rfl, rfl⟩, fun _ _ => rfl, fun _ _ => rfl,
      rfl, le_rfl, by simp, by simp⟩
  case client =>
    rw [spawnClient_eq]
    refine .inl ⟨fun i x hx => ?_, fun _ _ => rfl, fun _ _ => rfl, rfl, Nat.le_succ _, by simp, by simp⟩
    rcases update_some hx with ⟨rfl, rfl⟩ | ⟨-, hx⟩
    · exact .inr ⟨rfl, rfl, rfl⟩
    · exact .inl ⟨x, hx, rfl, rfl⟩
  case shared h =>
    refine .inl ⟨fun _ x hx => .inl ⟨x, hx, rfl, rfl⟩, fun _ _ => rfl, fun _ _ => rfl, ?_, le_rfl,
      by simp, by simp⟩
    cases h <;> rfl
  case upstream hp hok ht =>
    exact .inr (.inl ⟨_, _, _, ⟨_, hp⟩, hok, ht, rfl, rfl, rfl, rfl, rfl, by simp⟩)
  case send address transport ht hstep hsend =>
    obtain ⟨-, u, x, draws, hu, -, -, rfl⟩ := sendQuery_sent hsend
    refine .inr (.inr ⟨_, _, _, _, some (address, transport), rfl, ht, hstep, ?_, ?_, ?_, fun _ _ => rfl, rfl,
      le_rfl, by simp⟩)
    · refine ⟨u, Function.update_self .., rfl, ?_, ?_, ?_, ?_⟩
      · rw [hu]
        rfl
      · rw [hu]
      · rw [hu]
      · intro h0x20
        rw [hu] at h0x20
        simpa using (Bool.and_eq_true_iff.mp h0x20).2
    · intro i y hne hy
      exact .inl ((Function.update_of_ne hne ..).symm.trans hy)
    · exact fun i v => queries_sent ..
  case spent ht hstep hsend =>
    obtain ⟨rfl, -⟩ := sendQuery_over hsend
    exact .inr (.inr ⟨_, _, _, _, none, rfl, ht, hstep, turned_put hw ht hstep (by simp)⟩)
  case child ht hstep =>
    have hup := stays hw ht hstep
    rw [spawnChild_eq]
    refine .inr (.inr ⟨_, _, _, _, none, rfl, ht, hstep, ?_, ?_, ?_, fun _ _ => rfl, rfl,
      Nat.le_succ _, by simp⟩)
    · exact ⟨_, Function.update_self .., rfl, hup⟩
    · intro i y hne hy
      have hy := (Function.update_of_ne hne ..).symm.trans hy
      rcases update_some hy with ⟨rfl, rfl⟩ | ⟨-, hy⟩
      · exact .inr ⟨rfl, rfl, rfl⟩
      · exact .inl hy
    · exact fun i v => (ite_self _).symm
  case done ht hstep =>
    exact .inr (.inr ⟨_, _, _, _, none, rfl, ht, hstep, turned_put hw ht hstep (by simp)⟩)

/-! ### The invariant along a run -/

theorem TaskTally.congr {trace trace' : List Obs} {i : ℕ} {t u : Task} (h : TaskTally trace i t)
    (hqueries : ∀ v, queries i v trace' = queries i v trace)
    (hmismatches : ∀ v, mismatches i v trace' = mismatches i v trace)
    (hu : dealings u = dealings t) (hup : u.upstream = t.upstream) : TaskTally trace' i u := by
  simp only [dealings, Prod.mk.injEq] at hu
  obtain ⟨hvisit, hasked, hover, hcase⟩ := hu
  have hnumber : u.visits = t.visits := congrArg Visit.number hvisit
  have htried : u.tried = t.tried := congrArg Visit.tried hvisit
  have htimed : u.timedOut = t.timedOut := congrArg Visit.timedOut hvisit
  refine ⟨?_, ?_, fun hsome => ?_, fun hsome h0x20 => ?_⟩
  · rw [hqueries, hmismatches, hnumber, hvisit]
    exact h.tally
  · rw [hnumber]
    intro v hv
    rw [hqueries, hmismatches]
    exact h.later v hv
  · have hengaged := h.engaged (hup ▸ hsome)
    rw [hqueries, hnumber]
    refine ⟨?_, ?_, ?_⟩
    · rw [hasked, htried]
      exact hengaged.tried
    · rw [hasked, htimed]
      exact hengaged.waited
    · rw [hasked, hover]
      exact hengaged.last
  · rw [hmismatches, hnumber, hasked]
    exact h.cased (hup ▸ hsome) (hcase ▸ h0x20)

theorem taskTally_newborn {trace : List Obs} {i : ℕ} {t : Task} (ht : Newborn t)
    (hunborn : ∀ v, queries i v trace = [] ∧ mismatches i v trace = []) : TaskTally trace i t := by
  obtain ⟨hvisit, hup⟩ := ht
  refine ⟨?_, fun v _ => hunborn v, ?_, ?_⟩
  · rw [(hunborn _).1, (hunborn _).2, hvisit]
    exact tally_fresh ⟨rfl, rfl, rfl⟩
  · simp [hup]
  · simp [hup]

theorem tallied_quiet (hq : Quiet a b) (h : Tallied a) : Tallied b where
  tasks i u hu := by
    rcases hq.tasks i u hu with ⟨t, ht, hsame, hup⟩ | ⟨rfl, hnew⟩
    · exact (h.tasks i t ht).congr (hq.queries i) (hq.mismatches i) hsame hup
    · refine taskTally_newborn hnew fun v => ?_
      rw [hq.queries, hq.mismatches]
      exact h.unborn _ le_rfl v
  woken i result src _ hphase := absurd hphase (hq.after i result src)
  marked i v x hx := by
    rw [hq.mismatches] at hx
    rw [hq.no0x20]
    rcases h.marked i v x hx with hx | ⟨src, _, hphase, -⟩
    · exact .inl hx
    · exact absurd hphase (hq.before i _ src)
  unborn i hi v := by
    rw [hq.queries, hq.mismatches]
    exact h.unborn i (hq.nextTaskId.trans hi) v
  bounded i v := by
    rw [hq.queries, hq.mismatches]
    exact h.bounded i v

/-! A completed query -/

theorem queries_completion (cfg : Config) (t : Task) (p : Pending)
    (result : Except UpstreamError Message) (n i v : ℕ) (trace : List Obs) :
    queries i v (completion cfg t p result ++ .wake p.task n :: trace) = queries i v trace := by
  unfold completion
  split <;> rfl

/-- The completion reports a letter case mismatch for visit `v` of task `i`. -/
def Reports (t : Task) (p : Pending) (result : Except UpstreamError Message) (i v : ℕ) : Prop :=
  result = .error .caseMismatch ∧ p.task = i ∧ t.visits = v

theorem mismatches_reported {t : Task} {p : Pending} {result : Except UpstreamError Message} {i v : ℕ}
    (h : Reports t p result i v) (n : ℕ) (trace : List Obs) :
    mismatches i v (completion cfg t p result ++ .wake p.task n :: trace) =
      p.server :: mismatches i v trace := by
  obtain ⟨rfl, rfl, rfl⟩ := h
  exact List.filterMap_cons_some (if_pos ⟨rfl, rfl⟩)

theorem mismatches_silent {t : Task} {p : Pending} {result : Except UpstreamError Message} {i v : ℕ}
    (h : ¬ Reports t p result i v) (n : ℕ) (trace : List Obs) :
    mismatches i v (completion cfg t p result ++ .wake p.task n :: trace) = mismatches i v trace := by
  unfold completion
  split
  · rfl
  · rfl
  · exact List.filterMap_cons_none (if_neg fun hsame => h ⟨rfl, hsame⟩)
  · rfl

theorem tallied_completed {p : Pending} {t : Task} {result : Except UpstreamError Message}
    (hw : Wired a.1 a.2) (hc : Completed cfg p t result a b) (h : Tallied a) : Tallied b := by
  obtain ⟨qid, hp⟩ := hc.pending
  obtain ⟨hserver, -, hover, hcase⟩ := hw.queries qid p hp t hc.task
  obtain ⟨t', ht', hup⟩ := hw.pending_task hp
  obtain rfl : t' = t := Option.some.inj (ht'.symm.trans hc.task)
  have hsome : t'.upstream.isSome = true := by simp [hup]
  have htask := h.tasks _ _ hc.task
  have hqueries (i v : ℕ) : queries i v b.2.trace = queries i v a.2.trace := by
    rw [hc.trace]
    exact queries_completion ..
  have hreported {i v : ℕ} (hr : Reports t' p result i v) :
      mismatches i v b.2.trace = p.server :: mismatches i v a.2.trace := by
    rw [hc.trace]
    exact mismatches_reported hr ..
  have hsilent {i v : ℕ} (hr : ¬ Reports t' p result i v) :
      mismatches i v b.2.trace = mismatches i v a.2.trace := by
    rw [hc.trace]
    exact mismatches_silent hr ..
  -- a mismatch is seen only in answer to a query that was sent in random case
  have hfirst : result = .error .caseMismatch → p.server ∉ mismatches p.task t'.visits a.2.trace := by
    rintro rfl
    have hallowed := Bool.and_eq_true_iff.mp hc.allowed
    rw [hserver]
    exact htask.cased hsome (hcase ▸ hallowed.1)
  have hmore (i v : ℕ) (x : Address) :
      (mismatches i v a.2.trace).count x ≤ (mismatches i v b.2.trace).count x := by
    by_cases hr : Reports t' p result i v
    · rw [hreported hr]
      exact List.count_le_count_cons
    · rw [hsilent hr]
  refine ⟨fun i u hu => ?_, ?_, fun i v x hx => ?_, fun i hi v => ?_, fun i v => ?_⟩
  · rw [hc.tasks] at hu
    rcases update_some hu with ⟨rfl, rfl⟩ | ⟨hne, hu⟩
    · refine ⟨⟨htask.tally.nodup, htask.tally.timedOut, htask.tally.known, htask.tally.rounds,
        fun x => ?_⟩, fun v hv => ?_, by simp, by simp⟩
      · have hudp := htask.tally.udp x
        have hle := hmore p.task t'.visits x
        rw [hqueries]
        dsimp only [visit] at hudp ⊢
        omega
      · rw [hqueries, hsilent fun hr => absurd hr.2.2 (Nat.ne_of_lt hv)]
        exact htask.later v hv
    · exact (h.tasks i u hu).congr (hqueries i) (fun v => hsilent fun hr => hne hr.2.1.symm) rfl rfl
  · intro i result' src u hphase hu
    rw [hc.phase] at hphase
    obtain ⟨rfl, hwake⟩ := Phase.running.inj hphase
    obtain ⟨rfl, -⟩ := Wake.upstream.inj hwake
    rw [hc.tasks, Function.update_self] at hu
    obtain rfl := Option.some.inj hu
    have hengaged := htask.engaged hsome
    refine ⟨⟨hengaged.tried, hengaged.waited, ?_⟩, ?_, fun hresult => ?_⟩
    · rw [hqueries]
      exact hengaged.last
    · rintro rfl
      have hallowed := Bool.and_eq_true_iff.mp hc.allowed
      rw [show t'.overTcp = (p.transport == .tcp) from hover.symm, eq_of_beq hallowed.1]
      rfl
    · have hudp := htask.tally.udp t'.asked
      have hone := List.nodup_iff_count_le_one.mp htask.tally.nodup t'.asked
      rw [hqueries, hreported ⟨hresult, rfl, rfl⟩, hserver, List.count_cons_self]
      dsimp only [visit] at hudp hone ⊢
      omega
  · have hold : x ∈ mismatches i v a.2.trace → x ∈ b.2.shared.no0x20 ∨ Handling b i x := by
      intro hx
      rcases h.marked i v x hx with hx | ⟨src, _, hphase, -⟩
      · exact .inl (hc.shared ▸ hx)
      · exact absurd hphase (hc.before i _ src)
    by_cases hr : Reports t' p result i v
    · rw [hreported hr] at hx
      obtain ⟨rfl, rfl, -⟩ := hr
      rcases List.mem_cons.mp hx with rfl | hx
      · refine .inr ⟨_, { t' with upstream := none }, hc.phase, ?_, hserver.symm⟩
        rw [hc.tasks, Function.update_self]
      · exact hold hx
    · rw [hsilent hr] at hx
      exact hold hx
  · rw [hc.nextTaskId] at hi
    have hne : p.task ≠ i := (lt_of_lt_of_le (hw.task_lt _ _ hc.task) hi).ne
    rw [hqueries, hsilent fun hr => hne hr.2.1]
    exact h.unborn i hi v
  · have hbounded := h.bounded i v
    refine ⟨fun x => ?_, fun x => ?_, ?_⟩
    · by_cases hr : Reports t' p result i v
      · rw [hreported hr]
        obtain ⟨hresult, rfl, rfl⟩ := hr
        have hone := hbounded.recased x
        by_cases hx : p.server = x
        · have hzero := List.count_eq_zero.mpr (hfirst hresult)
          rw [← hx, List.count_cons_self, hzero]
        · rw [List.count_cons_of_ne hx]
          exact hone
      · rw [hsilent hr]
        exact hbounded.recased x
    · have hudp := hbounded.udp x
      have hle := hmore i v x
      rw [hqueries]
      omega
    · rw [hqueries]
      exact hbounded.tcp

/-! The end of a step -/

/-- The visit that a step ends in, number `v` or later, is in order, and so is the query that it sends. -/
def TurnTally (trace : List Obs) (id v : ℕ) (turn : Turn) : Prop :=
  v ≤ turn.2.1.visits ∧
    Tally (queries id turn.2.1.visits trace) (mismatches id turn.2.1.visits trace) (visit turn.2.1) ∧
    ∀ x tr, turn.2.2 = .sendQuery x tr →
      Sendable (queries id turn.2.1.visits trace) (visit turn.2.1) x tr

theorem step_tally {trace : List Obs} {id : ℕ} {wake : Wake} {t₀ : Task} {turn : Turn}
    (htask : TaskTally trace id t₀) (hwoken : ∀ result src, wake = .upstream result src →
      Woken (queries id t₀.visits trace) (mismatches id t₀.visits trace) t₀ result)
    (hvisit : VisitOk t₀ turn wake) : TurnTally trace id t₀.visits turn := by
  have hfresh {u : Visit} (hlt : t₀.visits < u.number) (hu : u.Fresh)
      (hs : Sought u (visit turn.2.1) turn.2.2) : TurnTally trace id t₀.visits turn := by
    have hnumber : turn.2.1.visits = u.number := (sought_number hs).1
    rw [TurnTally, hnumber, (htask.later _ hlt).1, (htask.later _ hlt).2]
    exact ⟨hlt.le, (tally_fresh hu).sought hs⟩
  cases wake with
  | start =>
    rcases hvisit with ⟨hsame, result, hnext⟩ | ⟨u, hlt, hu, hs⟩
    · have hnumber : turn.2.1.visits = t₀.visits := congrArg Visit.number hsame
      rw [TurnTally, hnumber, hsame, hnext]
      exact ⟨le_rfl, htask.tally, fun _ _ hsend => absurd hsend (by simp)⟩
    · exact hfresh hlt hu hs
  | child =>
    obtain ⟨servers, hsub, hs⟩ := hvisit
    have hnumber : turn.2.1.visits = t₀.visits := (sought_number hs).1
    rw [TurnTally, hnumber]
    exact ⟨le_rfl, (htask.tally.servers hsub).sought hs⟩
  | upstream result src =>
    rcases htask.tally.replied (hwoken result src rfl) hvisit with ⟨u, hlt, hu, hs⟩ | ⟨hnumber, hrest⟩
    · exact hfresh hlt hu hs
    · have hnumber : turn.2.1.visits = t₀.visits := hnumber
      rw [TurnTally, hnumber]
      exact ⟨le_rfl, hrest⟩

theorem replied_marked {no0x20 : List Address}
    (h : Replied t no0x20 (.error .caseMismatch) v next) : t.asked ∈ no0x20 := by
  cases h with
  | recased hmarked => exact hmarked
  | gaveUp hgives _ => exact absurd hgives (by simp [givesUp])

/-- After a step, every server that answered in another letter case is marked. -/
theorem Tallied.marked_turn {id : ℕ} {wake : Wake} {t₀ : Task} {turn : Turn} (h : Tallied a)
    (hphase : a.1 = .running id wake) (ht : a.2.tasks id = some t₀)
    (hstep : StepOk cfg wake a.2.shared t₀ turn) {i v : ℕ} {x : Address}
    (hx : x ∈ mismatches i v a.2.trace) : x ∈ turn.1.no0x20 := by
  rcases h.marked i v x hx with hx | ⟨src, t, hrunning, hi, rfl⟩
  · exact turn_no0x20 hstep.ok hx
  · obtain ⟨rfl, rfl⟩ := Phase.running.inj (hphase.symm.trans hrunning)
    obtain rfl : t = t₀ := Option.some.inj (hi.symm.trans ht)
    exact replied_marked hstep.visit

theorem tallied_turned {id : ℕ} {wake : Wake} {t₀ : Task} {turn : Turn}
    {sent : Option (Address × UpstreamTransport)} (hw : Wired a.1 a.2)
    (hphase : a.1 = .running id wake) (ht : a.2.tasks id = some t₀)
    (hstep : StepOk cfg wake a.2.shared t₀ turn) (hturned : Turned id turn sent a b)
    (h : Tallied a) : Tallied b := by
  have htask := h.tasks id t₀ ht
  obtain ⟨hle, htally, hsendable⟩ := step_tally htask
    (fun result src hwake => h.woken id result src t₀ (hwake ▸ hphase) ht) hstep.visit
  have hmarked {i v : ℕ} {x : Address} (hx : x ∈ mismatches i v a.2.trace) : x ∈ turn.1.no0x20 :=
    h.marked_turn hphase ht hstep hx
  obtain ⟨u, hu, hown⟩ := hturned.own
  -- the task itself
  have hnew : TaskTally b.2.trace id u ∧
      Bounded (queries id turn.2.1.visits b.2.trace) (mismatches id turn.2.1.visits b.2.trace) := by
    have hbounded := h.bounded id turn.2.1.visits
    have hlater : ∀ v, turn.2.1.visits < v →
        queries id v b.2.trace = [] ∧ mismatches id v b.2.trace = [] := by
      intro v hv
      rw [hturned.queries, if_neg fun hsame => absurd hsame.2 (Nat.ne_of_lt hv), hturned.mismatches]
      exact htask.later v (lt_of_le_of_lt hle hv)
    cases sent with
    | none =>
      obtain ⟨hvisit, hup⟩ := hown
      have hnumber : u.visits = turn.2.1.visits := congrArg Visit.number hvisit
      have hqueries := hturned.queries id turn.2.1.visits
      rw [if_pos ⟨rfl, rfl⟩, Option.toList_none, List.nil_append] at hqueries
      rw [hqueries, hturned.mismatches]
      refine ⟨⟨?_, hnumber ▸ hlater, by simp [hup], by simp [hup]⟩, hbounded⟩
      rw [hnumber, hqueries, hturned.mismatches, hvisit]
      exact htally
    | some query =>
      obtain ⟨address, transport⟩ := query
      obtain ⟨hnext, hvisit, hasked, hover, hcase⟩ := hown
      have hsend := hsendable address transport hnext
      have hnumber : u.visits = turn.2.1.visits := congrArg Visit.number hvisit
      have hqueries := hturned.queries id turn.2.1.visits
      rw [if_pos ⟨rfl, rfl⟩, Option.toList_some, List.singleton_append] at hqueries
      have htally' := htally.sent hsend
      refine ⟨⟨?_, hnumber ▸ hlater, fun _ => ?_, fun _ h0x20 hx => ?_⟩, ?_⟩
      · rw [hnumber, hqueries, hturned.mismatches, hvisit]
        exact htally'
      · have htried : u.tried = _ := congrArg Visit.tried hvisit
        have htimed : u.timedOut = _ := congrArg Visit.timedOut hvisit
        rw [hnumber, hqueries]
        cases transport with
        | udp =>
          refine ⟨?_, ?_, ?_⟩
          · rw [htried, hasked]
            exact List.mem_append_right _ (List.mem_singleton.mpr rfl)
          · rw [htimed, hasked]
            exact fun hmem => hsend.2 (htally.timedOut hmem)
          · rw [hasked, hover]
            rfl
        | tcp =>
          refine ⟨?_, ?_, ?_⟩
          · rw [htried, hasked]
            exact hsend.1
          · rw [htimed, hasked]
            exact hsend.2.1
          · rw [hasked, hover]
            rfl
      · rw [hasked, hnumber, hturned.mismatches] at hx
        exact hcase h0x20 (hmarked hx)
      · rw [hqueries, hturned.mismatches]
        refine ⟨hbounded.recased, htally'.udp_le, hbounded.tcp.cons ?_⟩
        rintro rfl
        exact hsend.2.2
  refine ⟨fun i y hy => ?_, fun i result src _ hrunning => absurd hrunning (hturned.after i result src),
    fun i v x hx => ?_, fun i hi v => ?_, fun i v => ?_⟩
  · by_cases hi : i = id
    · subst hi
      obtain rfl : u = y := Option.some.inj (hu.symm.trans hy)
      exact hnew.1
    · have hqueries (v : ℕ) : queries i v b.2.trace = queries i v a.2.trace := by
        rw [hturned.queries, if_neg fun hsame => hi hsame.1.symm]
      rcases hturned.others i y hi hy with hy | ⟨rfl, hborn⟩
      · exact (h.tasks i y hy).congr hqueries (hturned.mismatches i) rfl rfl
      · refine taskTally_newborn hborn fun v => ?_
        rw [hqueries, hturned.mismatches]
        exact h.unborn _ le_rfl v
  · rw [hturned.mismatches] at hx
    rw [hturned.no0x20]
    exact .inl (hmarked hx)
  · have hi := hturned.nextTaskId.trans hi
    have hne : id ≠ i := (lt_of_lt_of_le (hw.task_lt _ _ ht) hi).ne
    rw [hturned.queries, if_neg fun hsame => hne hsame.1, hturned.mismatches]
    exact h.unborn i hi v
  · by_cases hsame : id = i ∧ turn.2.1.visits = v
    · obtain ⟨rfl, rfl⟩ := hsame
      exact hnew.2
    · rw [hturned.queries, if_neg hsame, hturned.mismatches]
      exact h.bounded i v

theorem tallied_micro (hw : Wired a.1 a.2) (hab : Micro cfg env a b) (h : Tallied a) : Tallied b := by
  rcases micro_cases hw hab with hquiet | ⟨p, t, result, hc⟩ |
    ⟨id, wake, t₀, turn, sent, hphase, ht, hstep, hturned⟩
  · exact tallied_quiet hquiet h
  · exact tallied_completed hw hc h
  · exact tallied_turned hw hphase ht hstep hturned h

theorem tallied_init (sh : Shared) : Tallied (.idle, { shared := sh }) where
  tasks := by simp
  woken := by simp
  marked := by simp [mismatches]
  unborn := by simp [queries, mismatches]
  bounded _ _ := ⟨by simp [mismatches], by simp [queries], by simp [Paired, queries]⟩

theorem tallied_run {sh : Shared} {es : List Event} {w : World}
    (h : Run (Step cfg env) { shared := sh } es w) : Tallied (.idle, w) :=
  run_keeps (fun _ _ => tallied_micro) h (wired_init sh) (tallied_init sh)

/-! ### Servers that were given up -/

/-- During its visit `v` task `id` has tried the server `x`, and will not ask it again. -/
structure Dropped (id v : ℕ) (x : Address) (n : ℕ) (s : Phase × World) : Prop where
  born : id < s.2.nextTaskId
  reached : ∀ t, s.2.tasks id = some t → v ≤ t.visits
  tried : ∀ t, s.2.tasks id = some t → t.visits = v → x ∈ t.tried ∧ x ∉ t.timedOut
  other : ∀ t, s.2.tasks id = some t → t.visits = v → t.upstream.isSome = true → t.asked ≠ x
  handled : ∀ t result src, s.2.tasks id = some t → t.visits = v →
    s.1 = .running id (.upstream result src) → t.asked = x → givesUp t result = true
  count : (queries id v s.2.trace).countP (fun q => q.1 == x) = n

theorem sought_drops {x : Address} (h : Sought v v' next) (hx : x ∈ v.tried ∧ x ∉ v.timedOut) :
    (x ∈ v'.tried ∧ x ∉ v'.timedOut) ∧ ∀ tr, next ≠ .sendQuery x tr := by
  induction h with
  | ask _ hnew =>
    refine ⟨hx, ?_⟩
    rintro tr ⟨⟩
    exact hnew hx.1
  | spawn q ancestry | finish result => exact ⟨hx, by simp⟩
  | again _ _ ih => exact ih ⟨List.mem_filter.mpr ⟨hx.1, by simpa using hx.2⟩, by simp [Visit.again]⟩

/-- A step that stays in the visit does not ask the server. -/
theorem visitOk_drops {x : Address} {t : Task} {turn : Turn} {wake : Wake}
    (hvisit : VisitOk t turn wake) (hsame : turn.2.1.visits = t.visits)
    (hx : x ∈ t.tried ∧ x ∉ t.timedOut)
    (hhandled : ∀ result src, wake = .upstream result src → t.asked = x → givesUp t result = true) :
    (x ∈ turn.2.1.tried ∧ x ∉ turn.2.1.timedOut) ∧ ∀ tr, turn.2.2 ≠ .sendQuery x tr := by
  have hrestarted (hr : Restarted (visit t) (visit turn.2.1) turn.2.2) :
      (x ∈ turn.2.1.tried ∧ x ∉ turn.2.1.timedOut) ∧ ∀ tr, turn.2.2 ≠ .sendQuery x tr := by
    rcases hr with ⟨heq, result, hnext⟩ | ⟨u, hlt, -, hs⟩
    · have htried : turn.2.1.tried = t.tried := congrArg Visit.tried heq
      have htimed : turn.2.1.timedOut = t.timedOut := congrArg Visit.timedOut heq
      rw [htried, htimed, hnext]
      exact ⟨hx, by simp⟩
    · have hnumber : turn.2.1.visits = u.number := (sought_number hs).1
      exact absurd (hsame.symm.trans hnumber) (Nat.ne_of_lt hlt)
  cases wake with
  | start => exact hrestarted hvisit
  | child =>
    obtain ⟨servers, -, hs⟩ := hvisit
    exact sought_drops hs hx
  | upstream result src =>
    have hother (hkept : givesUp t result = false) : t.asked ≠ x := by
      intro heq
      have hgives := hhandled result src rfl heq
      rw [hkept] at hgives
      exact absurd hgives (by simp)
    have hreplied : Replied t turn.1.no0x20 result (visit turn.2.1) turn.2.2 := hvisit
    generalize hv' : visit turn.2.1 = v' at hreplied hrestarted
    generalize turn.2.2 = next at hreplied hrestarted ⊢
    have htried : turn.2.1.tried = v'.tried := congrArg Visit.tried hv'
    have htimed : turn.2.1.timedOut = v'.timedOut := congrArg Visit.timedOut hv'
    cases hreplied with
    | used _ hr => exact hrestarted hr
    | gaveUp _ hs =>
      rw [htried, htimed]
      exact sought_drops hs hx
    | spoofed =>
      rw [htried, htimed]
      refine ⟨hx, ?_⟩
      rintro tr ⟨⟩
      exact hother rfl rfl
    | truncated hkept _ =>
      rw [htried, htimed]
      refine ⟨hx, ?_⟩
      rintro tr ⟨⟩
      exact hother hkept rfl
    | recased _ =>
      have hne := hother rfl
      rw [htried, htimed]
      refine ⟨⟨List.mem_filter.mpr ⟨hx.1, by simpa using hne.symm⟩, hx.2⟩, ?_⟩
      rintro tr ⟨⟩
      exact hne rfl
    | timedOut hs =>
      have hne := hother rfl
      rw [htried, htimed]
      refine sought_drops hs ⟨hx.1, fun hmem => ?_⟩
      rcases List.mem_append.mp hmem with hmem | hmem
      · exact hx.2 hmem
      · exact hne (List.mem_singleton.mp hmem).symm

theorem turn_visits_le {wake : Wake} {sh : Shared} {t : Task} {turn : Turn}
    (h : StepOk cfg wake sh t turn) : t.visits ≤ turn.2.1.visits := by
  obtain ⟨u, hmoves, hu⟩ := turn_moves h.ok
  have hvisits : turn.2.1.visits = u.visits := by rcases hu with hu | hu <;> rw [hu]
  rw [hvisits]
  rcases moves_lookups hmoves with ⟨heq, -⟩ | ⟨hlt, -⟩
  · exact (heq :).ge
  · exact hlt.le

theorem dropped_turned {id id' v n : ℕ} {x : Address} {wake : Wake} {t₀ : Task} {turn : Turn}
    {sent : Option (Address × UpstreamTransport)} (hphase : a.1 = .running id' wake)
    (ht : a.2.tasks id' = some t₀) (hstep : StepOk cfg wake a.2.shared t₀ turn)
    (hturned : Turned id' turn sent a b) (h : Dropped id v x n a) : Dropped id v x n b := by
  have hborn := h.born.trans_le hturned.nextTaskId
  have hafter {P : Prop} {i : ℕ} {result : Except UpstreamError Message} {src : Option Source}
      (hrunning : b.1 = .running i (.upstream result src)) : P :=
    absurd hrunning (hturned.after i result src)
  by_cases hid : id' = id
  · subst hid
    have hle := turn_visits_le hstep
    have hreached := h.reached t₀ ht
    obtain ⟨u, hu, hown⟩ := hturned.own
    have hvisits : u.visits = turn.2.1.visits := by
      cases sent with
      | none => exact congrArg Visit.number hown.1
      | some query => exact congrArg Visit.number hown.2.1
    have hthat {t : Task} (hi : b.2.tasks id' = some t) : t = u := Option.some.inj (hi.symm.trans hu)
    by_cases hv : turn.2.1.visits = v
    · -- the step stays in the visit
      have hold : t₀.visits = v := by omega
      obtain ⟨hkept, hnever⟩ := visitOk_drops hstep.visit (hv.trans hold.symm) (h.tried t₀ ht hold)
        fun result src hwake hx => h.handled t₀ result src ht hold (hwake ▸ hphase) hx
      have hqueries := hturned.queries id' v
      rw [if_pos ⟨rfl, hv⟩] at hqueries
      cases sent with
      | none =>
        obtain ⟨hvisit, hup⟩ := hown
        have htried : u.tried = turn.2.1.tried := congrArg Visit.tried hvisit
        have htimed : u.timedOut = turn.2.1.timedOut := congrArg Visit.timedOut hvisit
        refine ⟨hborn, fun t hi => ?_, fun t hi _ => ?_, fun t hi _ hsome => ?_,
          fun _ _ _ _ _ => hafter, ?_⟩
        · rw [hthat hi, hvisits]
          exact hreached.trans hle
        · rw [hthat hi, htried, htimed]
          exact hkept
        · rw [hthat hi, hup] at hsome
          exact absurd hsome (by simp)
        · rw [hqueries]
          exact h.count
      | some query =>
        obtain ⟨address, transport⟩ := query
        obtain ⟨hnext, hvisit, hasked, -, -⟩ := hown
        have hne : address ≠ x := fun heq => hnever transport (heq ▸ hnext)
        have htried : u.tried = _ := congrArg Visit.tried hvisit
        have htimed : u.timedOut = turn.2.1.timedOut := congrArg Visit.timedOut hvisit
        refine ⟨hborn, fun t hi => ?_, fun t hi _ => ?_, fun t hi _ _ => ?_,
          fun _ _ _ _ _ => hafter, ?_⟩
        · rw [hthat hi, hvisits]
          exact hreached.trans hle
        · rw [hthat hi, htried, htimed]
          refine ⟨?_, hkept.2⟩
          cases transport with
          | tcp => exact hkept.1
          | udp => exact List.mem_append_left _ hkept.1
        · rw [hthat hi, hasked]
          exact hne
        · rw [hqueries, Option.toList_some, List.singleton_append,
            List.countP_cons_of_neg (by simpa using hne)]
          exact h.count
    · have hpast {t : Task} (hi : b.2.tasks id' = some t) : t.visits ≠ v := by
        rw [hthat hi, hvisits]
        exact hv
      refine ⟨hborn, fun t hi => ?_, fun t hi heq => absurd heq (hpast hi),
        fun t hi heq => absurd heq (hpast hi), fun _ _ _ _ _ => hafter, ?_⟩
      · rw [hthat hi, hvisits]
        exact hreached.trans hle
      · rw [hturned.queries, if_neg fun hsame => hv hsame.2]
        exact h.count
  · have hthose {t : Task} (hi : b.2.tasks id = some t) : a.2.tasks id = some t := by
      rcases hturned.others id t (Ne.symm hid) hi with hi | ⟨heq, -⟩
      · exact hi
      · exact absurd heq h.born.ne
    refine ⟨hborn, fun t hi => h.reached t (hthose hi), fun t hi => h.tried t (hthose hi),
      fun t hi => h.other t (hthose hi), fun _ _ _ _ _ => hafter, ?_⟩
    rw [hturned.queries, if_neg fun hsame => hid hsame.1]
    exact h.count

theorem dropped_quiet {id v n : ℕ} {x : Address} (hq : Quiet a b) (h : Dropped id v x n a) :
    Dropped id v x n b := by
  have hthose {u : Task} (hi : b.2.tasks id = some u) :
      ∃ t, a.2.tasks id = some t ∧ dealings u = dealings t ∧ u.upstream = t.upstream := by
    rcases hq.tasks id u hi with hold | ⟨heq, -⟩
    · exact hold
    · exact absurd heq h.born.ne
  refine ⟨h.born.trans_le hq.nextTaskId, fun u hi => ?_, fun u hi hv => ?_, fun u hi hv hsome => ?_,
    fun _ result src _ _ hrunning => absurd hrunning (hq.after id result src), ?_⟩
  all_goals try
    obtain ⟨t, ht, hsame, hup⟩ := hthose hi
    simp only [dealings, Prod.mk.injEq] at hsame
    obtain ⟨hvisit, hasked, -⟩ := hsame
    have hnumber : u.visits = t.visits := congrArg Visit.number hvisit
  · rw [hnumber]
    exact h.reached t ht
  · have htried : u.tried = t.tried := congrArg Visit.tried hvisit
    have htimed : u.timedOut = t.timedOut := congrArg Visit.timedOut hvisit
    rw [htried, htimed]
    exact h.tried t ht (hnumber ▸ hv)
  · rw [hasked]
    exact h.other t ht (hnumber ▸ hv) (hup ▸ hsome)
  · rw [hq.queries]
    exact h.count

theorem dropped_completed {id v n : ℕ} {x : Address} {p : Pending} {t : Task}
    {result : Except UpstreamError Message} (hw : Wired a.1 a.2)
    (hc : Completed cfg p t result a b) (h : Dropped id v x n a) : Dropped id v x n b := by
  obtain ⟨qid, hp⟩ := hc.pending
  obtain ⟨t', ht', hup⟩ := hw.pending_task hp
  obtain rfl : t' = t := Option.some.inj (ht'.symm.trans hc.task)
  have hsome : t'.upstream.isSome = true := by simp [hup]
  have hcount : (queries id v b.2.trace).countP (fun q => q.1 == x) = n := by
    rw [hc.trace, queries_completion]
    exact h.count
  have hborn : id < b.2.nextTaskId := hc.nextTaskId ▸ h.born
  by_cases hid : p.task = id
  · subst hid
    have hthat {u : Task} (hi : b.2.tasks p.task = some u) : u = { t' with upstream := none } := by
      rw [hc.tasks, Function.update_self] at hi
      exact (Option.some.inj hi).symm
    refine ⟨hborn, fun u hi => ?_, fun u hi hv => ?_, fun u hi _ hup => ?_,
      fun u _ _ hi hv _ hx => ?_, hcount⟩
    · rw [hthat hi]
      exact h.reached t' hc.task
    · rw [hthat hi] at hv ⊢
      exact h.tried t' hc.task hv
    · rw [hthat hi] at hup
      exact absurd hup (by simp)
    · rw [hthat hi] at hv hx
      exact absurd hx (h.other t' hc.task hv hsome)
  · have hthose {u : Task} (hi : b.2.tasks id = some u) : a.2.tasks id = some u := by
      rw [hc.tasks] at hi
      exact (Function.update_of_ne (Ne.symm hid) ..).symm.trans hi
    refine ⟨hborn, fun u hi => h.reached u (hthose hi), fun u hi => h.tried u (hthose hi),
      fun u hi => h.other u (hthose hi), fun _ _ _ _ _ hrunning => ?_, hcount⟩
    exact absurd (Phase.running.inj (hc.phase.symm.trans hrunning)).1 hid

theorem dropped_micro {id v n : ℕ} {x : Address} (hw : Wired a.1 a.2) (hab : Micro cfg env a b)
    (h : Dropped id v x n a) : Dropped id v x n b := by
  rcases micro_cases hw hab with hquiet | ⟨p, t, result, hc⟩ |
    ⟨id', wake, t₀, turn, sent, hphase, ht, hstep, hturned⟩
  · exact dropped_quiet hquiet h
  · exact dropped_completed hw hc h
  · exact dropped_turned hphase ht hstep hturned h

/-- **A server that is given up** is not asked again in the visit, however the run goes on. -/
theorem givenUp_run {w w₁ w₂ : World} {es : List Event} {qid : ℕ} {p : Pending} {t : Task}
    {result : Except UpstreamError Message} (hw : Wired .idle w) (htallied : Tallied (.idle, w))
    (hp : w.pending qid = some p) (ht : w.tasks p.task = some t) (hgives : givesUp t result = true)
    (hstep : Step cfg env w (.upstream qid result) w₁) (hrun : Run (Step cfg env) w₁ es w₂) :
    (queries p.task t.visits w₂.trace).countP (fun q => q.1 == p.server) =
      (queries p.task t.visits w.trace).countP (fun q => q.1 == p.server) := by
  obtain ⟨p', t', hp', hok, ht', hmicros⟩ := upstream_step hw hstep
  obtain rfl : p' = p := Option.some.inj (hp'.symm.trans hp)
  obtain rfl : t' = t := Option.some.inj (ht'.symm.trans ht)
  have hwake : Micro cfg env (.idle, w) _ := .upstream hp hok ht
  obtain ⟨u, hu, hup⟩ := hw.pending_task hp
  obtain rfl : u = t' := Option.some.inj (hu.symm.trans ht)
  have hengaged := (htallied.tasks _ _ ht).engaged (by simp [hup])
  have hserver : p'.server = u.asked := (hw.queries qid p' hp u ht).1
  have hthat {y : Task} (hi : Function.update w.tasks p'.task (some { u with upstream := none })
      p'.task = some y) : y = { u with upstream := none } := by
    rw [Function.update_self] at hi
    exact (Option.some.inj hi).symm
  have hstart : Dropped p'.task u.visits p'.server
      ((queries p'.task u.visits w.trace).countP fun q => q.1 == p'.server)
      (.running p'.task (.upstream result (sourceOf u result)),
        { w with
          pending := without w.pending (some qid)
          trace := completion cfg u p' result ++ Obs.wake p'.task u.budget :: w.trace }.putTask
          p'.task { u with upstream := none }) := by
    refine ⟨hw.task_lt _ _ ht, fun y hy => ?_, fun y hy _ => ?_, fun y hy _ hsome => ?_,
      fun y r src hy _ hphase _ => ?_, ?_⟩
    · rw [hthat hy]
    · rw [hthat hy, hserver]
      exact ⟨hengaged.tried, hengaged.waited⟩
    · rw [hthat hy] at hsome
      exact absurd hsome (by simp)
    · obtain ⟨-, hwakes⟩ := Phase.running.inj hphase
      obtain ⟨rfl, -⟩ := Wake.upstream.inj hwakes
      rw [hthat hy]
      exact hgives
    · show (queries _ _ (completion cfg u p' result ++ _)).countP _ = _
      rw [queries_completion]
  have hmid := micros_keep (fun _ _ => dropped_micro) hmicros (wired_micro hwake hw) hstart
  have hw₁ : Wired .idle w₁ := wired_micros (.head hwake hmicros) hw
  exact (run_keeps (fun _ _ => dropped_micro) hrun hw₁ hmid).count

/-- **Retries per server are bounded.** In every state reached, the servers a task has tried are
distinct servers of the zone, and those that timed out are among them. In each visit a server is sent
at most `1 + kMaxRetryRounds` queries over UDP, and one more if it answered in another letter case,
which it does at most once; a query over TCP comes right after one over UDP to the same server. A
server that is given up, whatever comes after, is not asked again in that visit. -/
theorem retries_bounded {sh : Shared} {es : List Event} {w : World}
    (h : Run (Step cfg env) { shared := sh } es w) :
    (∀ id t, w.tasks id = some t →
      t.tried.Nodup ∧ t.timedOut ⊆ t.tried ∧ t.tried ⊆ t.servers) ∧
    (∀ id v x, (queries id v w.trace).count (x, .udp) ≤
        1 + kMaxRetryRounds.toNat + (mismatches id v w.trace).count x ∧
      (mismatches id v w.trace).count x ≤ 1 ∧
      (queries id v w.trace).count (x, .tcp) ≤ (queries id v w.trace).count (x, .udp)) ∧
    (∀ id v, Paired (queries id v w.trace)) ∧
    ∀ qid p t result w₁ es' w₂, w.pending qid = some p → w.tasks p.task = some t →
      givesUp t result = true → Step cfg env w (.upstream qid result) w₁ →
      Run (Step cfg env) w₁ es' w₂ →
      (queries p.task t.visits w₂.trace).countP (fun q => q.1 == p.server) =
        (queries p.task t.visits w.trace).countP (fun q => q.1 == p.server) := by
  have hw : Wired .idle w := wired_run h (wired_init sh)
  have htallied := tallied_run h
  refine ⟨fun id t ht => ?_, fun id v x => ?_, fun id v => (htallied.bounded id v).tcp, ?_⟩
  · have htally := (htallied.tasks id t ht).tally
    exact ⟨htally.nodup, htally.timedOut, htally.known⟩
  · have hbounded := htallied.bounded id v
    exact ⟨hbounded.udp x, hbounded.recased x, (Nat.le_add_right _ _).trans (hbounded.tcp.tcp_le x)⟩
  · intro qid p t result w₁ es' w₂ hp ht hgives hstep hrun
    exact givenUp_run hw htallied hp ht hgives hstep hrun

/-! ### A server that refuses -/

/-- A network with two servers, which serve the root. -/
def twoServers : Config :=
  { sampleConfig with
    hints := { sampleConfig.hints with
      addresses := [{ name := ⟨[[114]], [[114]]⟩, rdata := .a 1 },
        { name := ⟨[[114]], [[114]]⟩, rdata := .a 2 }] } }

/-- A client asks, and the first query is sent. -/
def askedEvents : List Event := [.resolve ⟨letter 97, RRType.A, kClassIN⟩, .timer 1]

/-- The server refuses; the response may be truncated. -/
def refusal (tc : Bool) : Except UpstreamError Message :=
  .ok (reply ⟨letter 97, RRType.A, kClassIN⟩ { header := { rcode := RCode.Refused, tc } })

theorem exists_refused (tc : Bool) {P : World → World → Bool}
    (h : (Run.applyAll (apply twoServers (fun _ => 0) 16) sampleStart askedEvents).any (fun w =>
      (apply twoServers (fun _ => 0) 16 w (.upstream 1 (refusal tc))).any (P w)) = true) :
    ∃ w w₁, Run (Step twoServers fun _ => 0) sampleStart askedEvents w ∧
      Step twoServers (fun _ => 0) w (.upstream 1 (refusal tc)) w₁ ∧ P w w₁ = true := by
  have hevent : ∀ s e s', apply twoServers (fun _ => 0) 16 s e = some s' →
      Step twoServers (fun _ => 0) s e s' := fun _ _ _ h => ⟨16, h⟩
  obtain ⟨w, hrun, hnext⟩ := Run.exists_of_applyAll hevent h
  obtain ⟨w₁, hstep, hP⟩ := (Option.any_eq_true _ _).mp hnext
  exact ⟨w, w₁, hrun, ⟨16, hstep⟩, hP⟩

/-- The query goes to the second server, and the first is not asked again. -/
theorem retries_bounded_refused : ∃ w w₁,
    Run (Step twoServers fun _ => 0) sampleStart askedEvents w ∧
      Step twoServers (fun _ => 0) w (.upstream 1 (refusal false)) w₁ ∧
      queries 1 1 w₁.trace = [(2, .udp), (1, .udp)] ∧
      ∀ es w₂, Run (Step twoServers fun _ => 0) w₁ es w₂ →
        (queries 1 1 w₂.trace).countP (fun q => q.1 == 1) = 1 := by
  let asked : World → World → Bool := fun w w₁ =>
    (w.pending 1).any fun p => (w.tasks 1).any fun t => p.task == 1 && p.server == 1 &&
      t.visits == 1 && givesUp t (refusal false) && queries 1 1 w.trace == [(1, .udp)] &&
      queries 1 1 w₁.trace == [(2, .udp), (1, .udp)]
  obtain ⟨w, w₁, hrun, hstep, hasked⟩ := exists_refused false (P := asked) (by decide +kernel)
  obtain ⟨p, hp, hasked⟩ := (Option.any_eq_true _ _).mp hasked
  obtain ⟨t, ht, hasked⟩ := (Option.any_eq_true _ _).mp hasked
  simp only [Bool.and_eq_true, beq_iff_eq] at hasked
  obtain ⟨⟨⟨⟨⟨htask, hserver⟩, hvisits⟩, hgives⟩, hbefore⟩, hafter⟩ := hasked
  refine ⟨w, w₁, hrun, hstep, hafter, fun es w₂ hmore => ?_⟩
  have hrun' : Run (Step twoServers fun _ => 0) { shared := sampleStart.shared } askedEvents w := hrun
  have hsame := (retries_bounded hrun').2.2.2 1 p t (refusal false) w₁ es w₂ hp
    (htask ▸ ht) hgives hstep hmore
  rw [htask, hserver, hvisits, hbefore] at hsame
  exact hsame

/-- A refusal that is truncated is not given up: the same server is asked again over TCP. -/
theorem refused_asked_again : ∃ w w₁,
    Run (Step twoServers fun _ => 0) sampleStart askedEvents w ∧
      (∃ p, w.pending 1 = some p ∧ p.task = 1 ∧ p.server = 1) ∧
      Step twoServers (fun _ => 0) w (.upstream 1 (refusal true)) w₁ ∧
      queries 1 1 w.trace = [(1, .udp)] ∧ queries 1 1 w₁.trace = [(1, .tcp), (1, .udp)] := by
  let asked : World → World → Bool := fun w w₁ =>
    match w.pending 1 with
    | some p => p.task == 1 && p.server == 1 && queries 1 1 w.trace == [(1, .udp)] &&
        queries 1 1 w₁.trace == [(1, .tcp), (1, .udp)]
    | none => false
  obtain ⟨w, w₁, hrun, hstep, hasked⟩ := exists_refused true (P := asked) (by decide +kernel)
  simp only [asked] at hasked
  split at hasked
  · next p hp =>
    simp only [Bool.and_eq_true, beq_iff_eq] at hasked
    obtain ⟨⟨⟨htask, hserver⟩, hbefore⟩, hafter⟩ := hasked
    exact ⟨w, w₁, hrun, ⟨p, hp, htask, hserver⟩, hstep, hbefore, hafter⟩
  · simp at hasked

end DNSentinel.Resolver.Retries
