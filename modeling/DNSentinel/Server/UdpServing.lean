import DNSentinel.Net.Udp
import DNSentinel.Server.Steps

/-! # The server behind the UDP listener

`UdpListener::on_readable` hands queries to `QueryProcessor::handle`, with a responder for each. The
responder is called at once, later, or never, and may outlive the listener. Queries that come in over TCP
go to the same processor. -/

namespace DNSentinel.Server.UdpServing

open DNSentinel.Types Lib.Runs Wire.Builder Wire.Parser Wire.Edns Resolver.Selection Resolver.Core
open Resolver.Data Policy.Addresses Policy.Lists
open Resolver.Machine (World)
open Net.Udp Processor Steps
open Serving (Service Fact Arrival Echoes responses responseTo Unresolved)

/-! ### The system -/

inductive Obs where
  | received (d : Datagram)
  /-- the handler was called, with a responder -/
  | asked (n : ℕ) (d : Datagram) (query : Message)
  | sent (n : ℕ) (out : Outgoing)
  /-- `sendmsg` failed -/
  | lost (n : ℕ)
  /-- the listener was destroyed -/
  | closed

structure UdpServer where
  service : Service
  maxResponseSize : UInt16 := kEdnsUdpPayloadSize
  listening : Bool := true
  stats : UdpListenerStats := {}
  /-- the responders, by the number of the query -/
  responders : ℕ → Option Responder := fun _ => none
  /-- what has happened, newest first -/
  trace : List Obs := []

namespace UdpServer

/-- `Socket::send`; `works` is whether `sendmsg` does, after EINTR at last. -/
def send (s : UdpServer) (n : ℕ) (r : Responder) (response : Message) (works : Bool) : UdpServer :=
  if works then
    { s with
      stats := { s.stats with responsesSent := s.stats.responsesSent + 1 }
      trace := .sent n (r.outgoing response) :: s.trace }
  else
    { s with
      stats := { s.stats with sendErrors := s.stats.sendErrors + 1 }
      trace := .lost n :: s.trace }

/-- The responder is called. -/
def onFact (works : Bool) (s : UdpServer) : Fact → UdpServer
  | .responded n response =>
    match s.responders n with
    -- the query came in elsewhere
    | none => s
    -- `socket.lock()`
    | some r => if s.listening then s.send n r response works else s
  | _ => s

/-- What the processor and the resolver have done. -/
def hear (s : UdpServer) (service : Service) (works : Bool) : UdpServer :=
  (service.log.take (service.log.length - s.service.log.length)).reverse.foldl (onFact works)
    { s with service }

/-- A turn of the loop of `on_readable` with a datagram. -/
def receive (cfg : Config) (s : UdpServer) (d : Datagram) (now later : ℕ) (works : Bool) :
    UdpServer :=
  let s := { s with trace := .received d :: s.trace }
  match parse d.bytes with
  | .error _ =>
    { s with stats := { s.stats with droppedMalformed := s.stats.droppedMalformed + 1 } }
  | .ok query =>
    if query.header.qr then
      { s with stats := { s.stats with droppedResponses := s.stats.droppedResponses + 1 } }
    else
      let n := s.service.nextQuery
      let s := { s with
        stats := { s.stats with queries := s.stats.queries + 1 }
        responders := Function.update s.responders n (some (responderFor s.maxResponseSize d query))
        trace := .asked n d query :: s.trace }
      s.hear (s.service.handle cfg now later query ⟨d.peer.addr, .udp⟩) works

/-- The loop of `on_readable`; the first argument bounds the turns. -/
def onReadable (cfg : Config) : ℕ → List Recv → UdpServer → UdpServer
  | 0, _, s => s
  | _ + 1, [], s => s
  | _ + 1, .again :: _, s => s
  | turns + 1, .error :: rest, s => onReadable cfg turns rest s
  | turns + 1, .datagram d now later works :: rest, s =>
    onReadable cfg turns rest (s.receive cfg d now later works)

end UdpServer

inductive Event where
  /-- the socket is readable -/
  | readable (receives : List Recv)
  /-- something else happens in the server -/
  | server (e : Serving.Event) (works : Bool)
  | close

/-- An event, if it can happen: `none` if it cannot, or if `fuel` runs out. -/
def apply (cfg : Config) (env : Random) (fuel : ℕ) (s : UdpServer) : Event → Option UdpServer
  | .readable receives =>
    if s.listening && !s.service.destroyed then some (s.onReadable cfg kMaxPacketsPerWakeup receives)
    else none
  | .server e works => (Serving.apply cfg env fuel s.service e).map fun v => s.hear v works
  | .close =>
    if s.listening then some { s with listening := false, trace := .closed :: s.trace } else none

/-- **One event of a run.** -/
def Step (cfg : Config) (env : Random) (s : UdpServer) (e : Event) (s' : UdpServer) : Prop :=
  ∃ fuel, apply cfg env fuel s e = some s'

/-! ### What the trace says -/

def receivedOf : Obs → Option Datagram
  | .received d => some d
  | _ => none

/-- The datagrams received, newest first. -/
def receivedIn (trace : List Obs) : List Datagram := trace.filterMap receivedOf

def askedOf : Obs → Option (ℕ × Datagram)
  | .asked n d _ => some (n, d)
  | _ => none

/-- Those that were handed to the handler, with the numbers they got. -/
def askedIn (trace : List Obs) : List (ℕ × Datagram) := trace.filterMap askedOf

def isOutcome (n : ℕ) : Obs → Bool
  | .sent i _ => i == n
  | .lost i => i == n
  | _ => false

/-- How often a response to the query was sent, or was to be. -/
def outcomes (trace : List Obs) (n : ℕ) : ℕ := trace.countP (isOutcome n)

def isSent : Obs → Bool
  | .sent .. => true
  | _ => false

def isLost : Obs → Bool
  | .lost _ => true
  | _ => false

/-- The counters are those of the trace. -/
structure Counted (stats : UdpListenerStats) (trace : List Obs) : Prop where
  queries : stats.queries = (receivedIn trace).countP isQuery
  malformed : stats.droppedMalformed = (receivedIn trace).countP isMalformed
  responses : stats.droppedResponses = (receivedIn trace).countP isResponse
  sent : stats.responsesSent = trace.countP isSent
  lost : stats.sendErrors = trace.countP isLost

/-! ### Calls of responders -/

variable {cfg : Config} {env : Random} {v v' : Service} {query : Message} {p : QueryProcessor} {n : ℕ}
  {s s' : UdpServer} {log fs : List Fact} {d : Datagram} {trace : List Obs} {r : Responder}

/-- What was sent, when the facts of `log` have been dealt with. -/
structure Heard (log : List Fact) (s : UdpServer) : Prop where
  sent : ∀ n out, .sent n out ∈ s.trace → ∃ r m, s.responders n = some r ∧ .responded n m ∈ log ∧
    out = r.outgoing m
  once : ∀ n, outcomes s.trace n ≤ (responses log n).length
  all : s.listening = true → ∀ n r, s.responders n = some r →
    outcomes s.trace n = (responses log n).length

theorem responses_cons_of_ne {f : Fact} (hf : ∀ m, f ≠ .responded n m) :
    responses (f :: log) n = responses log n := by
  refine List.filterMap_cons_none ?_
  cases f with
  | responded i m =>
    refine if_neg fun hi => ?_
    subst hi
    exact hf m rfl
  | _ => rfl

theorem responses_cons_self (log : List Fact) (n : ℕ) (m : Message) :
    responses (.responded n m :: log) n = m :: responses log n :=
  List.filterMap_cons_some (if_pos rfl)

theorem send_spec (s : UdpServer) (n : ℕ) (r : Responder) (response : Message) (works : Bool) :
    ∃ o stats, s.send n r response works = { s with stats, trace := o :: s.trace } ∧
      (o = .sent n (r.outgoing response) ∨ o = .lost n) ∧
      (Counted s.stats s.trace → Counted stats (o :: s.trace)) := by
  unfold UdpServer.send
  split_ifs
  · refine ⟨_, _, rfl, .inl rfl, fun h => ⟨h.queries, h.malformed, h.responses, ?_, ?_⟩⟩
    · rw [List.countP_cons_of_pos rfl, ← h.sent]
    · rw [List.countP_cons_of_neg Bool.false_ne_true, ← h.lost]
  · refine ⟨_, _, rfl, .inr rfl, fun h => ⟨h.queries, h.malformed, h.responses, ?_, ?_⟩⟩
    · rw [List.countP_cons_of_neg Bool.false_ne_true, ← h.sent]
    · rw [List.countP_cons_of_pos rfl, ← h.lost]

theorem Heard.other {f : Fact} (h : Heard log s)
    (hf : ∀ n m, f = .responded n m → s.responders n = none ∨ s.listening = false) :
    Heard (f :: log) s := by
  have hlonger : ∀ n, (responses log n).length ≤ (responses (f :: log) n).length := fun n =>
    ((List.sublist_cons_self f log).filterMap _).length_le
  refine ⟨fun n out hmem => ?_, fun n => (h.once n).trans (hlonger n), fun hopen n r hr => ?_⟩
  · obtain ⟨r, m, hr, hm, heq⟩ := h.sent n out hmem
    exact ⟨r, m, hr, List.mem_cons_of_mem _ hm, heq⟩
  · rw [h.all hopen n r hr, responses_cons_of_ne]
    intro m heq
    rcases hf n m heq with hnone | hclosed
    · rw [hnone] at hr
      cases hr
    · rw [hclosed] at hopen
      cases hopen

theorem Heard.send (h : Heard log s) (hr : s.responders n = some r) (response : Message)
    (works : Bool) : Heard (.responded n response :: log) (s.send n r response works) := by
  obtain ⟨o, stats, heq, ho, -⟩ := send_spec s n r response works
  have hcount : ∀ i, outcomes (o :: s.trace) i = outcomes s.trace i + if n = i then 1 else 0 := by
    intro i
    rcases ho with rfl | rfl
    · simp [outcomes, List.countP_cons, isOutcome]
    · simp [outcomes, List.countP_cons, isOutcome]
  rw [heq]
  refine ⟨fun i out hmem => ?_, fun i => ?_, fun hopen i ri hi => ?_⟩
  · rcases List.mem_cons.mp hmem with rfl | hold
    · rcases ho with heq | heq
      · obtain ⟨rfl, rfl⟩ := Obs.sent.inj heq
        exact ⟨r, response, hr, List.mem_cons_self, rfl⟩
      · cases heq
    · obtain ⟨ri, m, hi, hm, heq⟩ := h.sent i out hold
      exact ⟨ri, m, hi, List.mem_cons_of_mem _ hm, heq⟩
  · dsimp only
    rw [hcount]
    split_ifs with hin
    · subst hin
      rw [responses_cons_self, List.length_cons]
      exact Nat.succ_le_succ (h.once n)
    · rw [responses_cons_of_ne fun m heq => hin (Fact.responded.inj heq).1]
      exact h.once i
  · dsimp only
    rw [hcount, h.all hopen i ri hi]
    split_ifs with hin
    · subst hin
      rw [responses_cons_self, List.length_cons]
    · rw [responses_cons_of_ne fun m heq => hin (Fact.responded.inj heq).1]
      rfl

theorem onFact_spec (s : UdpServer) (works : Bool) (f : Fact) :
    (s.onFact works f = s ∧
      ∀ n m, f = .responded n m → s.responders n = none ∨ s.listening = false) ∨
    ∃ n r m, f = .responded n m ∧ s.responders n = some r ∧ s.listening = true ∧
      s.onFact works f = s.send n r m works := by
  cases f with
  | responded n response =>
    cases hr : s.responders n with
    | none =>
      refine .inl ⟨by simp only [UdpServer.onFact, hr], fun i m heq => .inl ?_⟩
      rw [← (Fact.responded.inj heq).1]
      exact hr
    | some r =>
      simp only [UdpServer.onFact, hr]
      split_ifs with hopen
      · exact .inr ⟨n, r, response, rfl, hr, hopen, rfl⟩
      · exact .inl ⟨rfl, fun _ _ _ => .inr (by simpa using hopen)⟩
  | _ => exact .inl ⟨rfl, fun _ _ heq => by cases heq⟩

/-! ### Runs -/

/-- The listener's part, as the log of `v` has it. -/
structure Core (v : Service) (s : UdpServer) : Prop where
  asked : ∀ n d query, .asked n d query ∈ s.trace → parse d.bytes = .ok query ∧
    s.responders n = some (responderFor s.maxResponseSize d query) ∧
    ∃ a, .handled n a ∈ v.log ∧ a.query = query ∧ a.client = ⟨d.peer.addr, .udp⟩
  responders : ∀ n r, s.responders n = some r → ∃ d query, .asked n d query ∈ s.trace ∧
    r = responderFor s.maxResponseSize d query
  numbers : ((askedIn s.trace).map Prod.fst).Pairwise (· > ·)
  below : ∀ n ∈ (askedIn s.trace).map Prod.fst, n < v.nextQuery
  queries : (askedIn s.trace).map Prod.snd = (receivedIn s.trace).filter isQuery
  counted : Counted s.stats s.trace
  listening : s.listening = true → .closed ∉ s.trace
  closed : s.listening = false → ∃ older, s.trace = .closed :: older ∧ .closed ∉ older

structure Sound (s : UdpServer) : Prop where
  service : Serving.Sound s.service
  marked : ∀ n m, .responded n m ∈ s.service.log → m.header.qr = true
  heard : Heard s.service.log s
  core : Core s.service s

theorem Core.record {o : Obs} {stats : UdpListenerStats} {listening : Bool} (h : Core v s)
    (ho : askedOf o = none) (hqueries : (receivedIn (o :: s.trace)).filter isQuery =
      (receivedIn s.trace).filter isQuery) (hstats : Counted stats (o :: s.trace))
    (hopen : listening = true → .closed ∉ o :: s.trace)
    (hclosed : listening = false → o = .closed ∧ .closed ∉ s.trace) :
    Core v { s with stats, listening, trace := o :: s.trace } := by
  have hasked : askedIn (o :: s.trace) = askedIn s.trace := List.filterMap_cons_none ho
  refine ⟨fun n d query hmem => ?_, fun n r hr => ?_, ?_, ?_, ?_, hstats, hopen, fun hend => ?_⟩
  · rcases List.mem_cons.mp hmem with rfl | hmem
    · cases ho
    · exact h.asked n d query hmem
  · obtain ⟨d, query, hmem, heq⟩ := h.responders n r hr
    exact ⟨d, query, List.mem_cons_of_mem _ hmem, heq⟩
  · rw [hasked]
    exact h.numbers
  · rw [hasked]
    exact h.below
  · rw [hasked, hqueries]
    exact h.queries
  · obtain ⟨rfl, hnot⟩ := hclosed hend
    exact ⟨s.trace, rfl, hnot⟩

theorem core_send {m : Message} (h : Core v s) (hopen : s.listening = true) (n : ℕ) (r : Responder)
    (works : Bool) : Core v (s.send n r m works) := by
  obtain ⟨o, stats, heq, ho, hcounted⟩ := send_spec s n r m works
  have hlast := hcounted h.counted
  rw [heq]
  have hshut : s.listening = false → o = .closed ∧ .closed ∉ s.trace := fun hclosed =>
    absurd (hopen.symm.trans hclosed) Bool.noConfusion
  rcases ho with rfl | rfl
  · exact h.record rfl rfl hlast (fun _ => by simpa using h.listening hopen) hshut
  · exact h.record rfl rfl hlast (fun _ => by simpa using h.listening hopen) hshut

/-- All that is new. -/
theorem hear_foldl (works : Bool) : ∀ (fs : List Fact) {log : List Fact} {s : UdpServer},
    s.service = v → Heard log s → Core v s →
    (fs.foldl (UdpServer.onFact works) s).service = v ∧
      (fs.foldl (UdpServer.onFact works) s).listening = s.listening ∧
      Heard (fs.reverse ++ log) (fs.foldl (UdpServer.onFact works) s) ∧
      Core v (fs.foldl (UdpServer.onFact works) s)
  | [], _, _, hservice, hheard, hcore => ⟨hservice, rfl, hheard, hcore⟩
  | f :: fs, log, s, hservice, hheard, hcore => by
    rw [List.reverse_cons, List.append_assoc, List.foldl_cons]
    rcases onFact_spec s works f with ⟨heq, hpassed⟩ | ⟨n, r, m, rfl, hr, hopen, heq⟩
    · rw [heq]
      exact hear_foldl works fs hservice (hheard.other hpassed) hcore
    · have hheard' := hheard.send hr m works
      have hcore' := core_send (m := m) hcore hopen n r works
      obtain ⟨o, stats, hsend, -⟩ := send_spec s n r m works
      rw [hsend] at heq hheard' hcore'
      rw [heq]
      exact hear_foldl works fs hservice hheard' hcore'

/-- The facts that are new are dealt with. -/
theorem sound_hear {fs : List Fact} (hservice : Serving.Sound v)
    (hmarked : ∀ n m, .responded n m ∈ v.log → m.header.qr = true) (hlog : v.log = fs ++ s.service.log)
    (hheard : Heard s.service.log s) (hcore : Core v s) (works : Bool) :
    Sound (s.hear v works) ∧ (s.hear v works).listening = s.listening := by
  have htake : v.log.take (v.log.length - s.service.log.length) = fs := by
    rw [hlog, List.length_append, Nat.add_sub_cancel, List.take_left]
  unfold UdpServer.hear
  rw [htake]
  have hstart : Heard s.service.log { s with service := v } := ⟨hheard.sent, hheard.once, hheard.all⟩
  have hcore' : Core v { s with service := v } :=
    ⟨hcore.asked, hcore.responders, hcore.numbers, hcore.below, hcore.queries, hcore.counted,
      hcore.listening, hcore.closed⟩
  obtain ⟨hsame, hlistening, hthen, hlast⟩ := hear_foldl works fs.reverse rfl hstart hcore'
  rw [List.reverse_reverse, ← hlog] at hthen
  refine ⟨⟨?_, ?_, ?_, ?_⟩, hlistening⟩
  · rw [hsame]
    exact hservice
  · rw [hsame]
    exact hmarked
  · rw [hsame]
    exact hthen
  · rw [hsame]
    exact hlast

theorem Core.mono (h : Core v s) (hlog : v.log ⊆ v'.log) (hnext : v.nextQuery ≤ v'.nextQuery) :
    Core v' s := by
  refine ⟨fun n d query hmem => ?_, h.responders, h.numbers, fun n hn => (h.below n hn).trans_le hnext,
    h.queries, h.counted, h.listening, h.closed⟩
  obtain ⟨hparse, hr, a, ha, hquery, hclient⟩ := h.asked n d query hmem
  exact ⟨hparse, hr, a, hlog ha, hquery, hclient⟩

/-- Something else happens in the server. -/
theorem sound_server {e : Serving.Event} (h : Sound s) (hs : Serving.Step cfg env s.service e v)
    (works : Bool) : Sound (s.hear v works) := by
  have hgoes := goes_step h.service hs
  obtain ⟨fs, hlog, -⟩ := hgoes.log
  exact (sound_hear (Serving.sound_step h.service hs) (hgoes.marked h.marked) hlog h.heard
    (h.core.mono hgoes.subset hgoes.next) works).1

/-! ### Datagrams -/

theorem kinds_error {e : Wire.ByteIo.Halt} (h : parse d.bytes = .error e) :
    isQuery d = false ∧ isMalformed d = true ∧ isResponse d = false := by
  simp only [isQuery, isMalformed, isResponse, h, and_self]

theorem kinds_ok (h : parse d.bytes = .ok query) :
    isQuery d = !query.header.qr ∧ isMalformed d = false ∧ isResponse d = query.header.qr := by
  simp only [isQuery, isMalformed, isResponse, h, and_self]

/-- Something is recorded that is no outcome, and the responders are the same as far as they were. -/
theorem Heard.record {o : Obs} (h : Heard log s) (ho : ∀ n, isOutcome n o = false)
    (htrace : s'.trace = o :: s.trace) (hlistening : s'.listening = true → s.listening = true)
    (hresponders : ∀ n r, s.responders n = some r → s'.responders n = some r)
    (hnew : ∀ n, s.responders n = none → s'.responders n ≠ none → responses log n = []) :
    Heard log s' := by
  have hsame : ∀ n, outcomes s'.trace n = outcomes s.trace n := by
    intro n
    rw [htrace]
    exact List.countP_cons_of_neg (by rw [ho n]; exact Bool.false_ne_true)
  refine ⟨fun n out hmem => ?_, fun n => ?_, fun hopen n r hr => ?_⟩
  · rw [htrace] at hmem
    rcases List.mem_cons.mp hmem with rfl | hmem
    · have hself := ho n
      simp [isOutcome] at hself
    · obtain ⟨r, m, hr, hm, heq⟩ := h.sent n out hmem
      exact ⟨r, m, hresponders n r hr, hm, heq⟩
  · rw [hsame]
    exact h.once n
  · rw [hsame]
    cases hold : s.responders n with
    | some r' => exact h.all (hlistening hopen) n r' hold
    | none =>
      have hnone := hnew n hold (by rw [hr]; exact Option.some_ne_none r)
      have hle := h.once n
      rw [hnone] at hle ⊢
      exact Nat.le_zero.mp hle

/-- The counters when a datagram comes in. -/
def tallied (stats : UdpListenerStats) (d : Datagram) : UdpListenerStats :=
  { stats with
    queries := stats.queries + (isQuery d).toNat
    droppedMalformed := stats.droppedMalformed + (isMalformed d).toNat
    droppedResponses := stats.droppedResponses + (isResponse d).toNat }

theorem Counted.receive {stats : UdpListenerStats} (h : Counted stats trace) (d : Datagram) :
    Counted (tallied stats d) (.received d :: trace) := by
  have hcount : ∀ kind : Datagram → Bool, (receivedIn (.received d :: trace)).countP kind =
      (receivedIn trace).countP kind + (kind d).toNat := by
    intro kind
    have hcons : receivedIn (.received d :: trace) = d :: receivedIn trace := rfl
    rw [hcons, List.countP_cons]
    cases kind d <;> rfl
  refine ⟨?_, ?_, ?_, h.sent.trans ?_, h.lost.trans ?_⟩
  · rw [hcount, ← h.queries]
    rfl
  · rw [hcount, ← h.malformed]
    rfl
  · rw [hcount, ← h.responses]
    rfl
  · exact (List.countP_cons_of_neg Bool.false_ne_true).symm
  · exact (List.countP_cons_of_neg Bool.false_ne_true).symm

theorem Counted.other {stats : UdpListenerStats} {o : Obs} (h : Counted stats trace)
    (hreceived : receivedOf o = none) (hsent : isSent o = false) (hlost : isLost o = false) :
    Counted stats (o :: trace) := by
  have hsame : receivedIn (o :: trace) = receivedIn trace := List.filterMap_cons_none hreceived
  refine ⟨?_, ?_, ?_, ?_, ?_⟩
  · rw [hsame, h.queries]
  · rw [hsame, h.malformed]
  · rw [hsame, h.responses]
  · rw [List.countP_cons_of_neg (by rw [hsent]; exact Bool.false_ne_true), h.sent]
  · rw [List.countP_cons_of_neg (by rw [hlost]; exact Bool.false_ne_true), h.lost]

/-- A datagram that is no query. -/
theorem sound_dropped {stats : UdpListenerStats} (h : Sound s) (hopen : s.listening = true)
    (hquery : isQuery d = false) (hstats : stats = tallied s.stats d) :
    Sound { s with stats, trace := .received d :: s.trace } := by
  refine ⟨h.service, h.marked, ?_, h.core.record rfl ?_ ?_ (fun _ hmem => ?_) fun hclosed => ?_⟩
  · exact h.heard.record (fun _ => rfl) rfl id (fun _ _ hr => hr) fun n hnone hsome => absurd hnone hsome
  · exact List.filter_cons_of_neg (by rw [hquery]; exact Bool.false_ne_true)
  · rw [hstats]
    exact h.core.counted.receive d
  · have hmem : .closed ∈ s.trace := by simpa using hmem
    exact h.core.listening hopen hmem
  · exact absurd (hopen.symm.trans hclosed) Bool.noConfusion

/-- A number that has not been given out. -/
theorem responses_fresh (h : Serving.Sound v) : responses v.log v.nextQuery = [] := by
  rw [List.eq_nil_iff_forall_not_mem]
  intro m hm
  obtain ⟨f, hf, hfm⟩ := List.mem_filterMap.mp hm
  cases f with
  | responded i m' =>
    simp only [responseTo] at hfm
    split_ifs at hfm with hi
    obtain ⟨a, ha, -⟩ := h.service.log.responded i m' hf
    have hlt := h.service.handled_lt ha
    omega
  | _ => cases hfm

theorem mem_askedIn (h : .asked n d query ∈ trace) : n ∈ (askedIn trace).map Prod.fst :=
  List.mem_map.mpr ⟨(n, d), List.mem_filterMap.mpr ⟨_, h, rfl⟩, rfl⟩

/-- The server once the handler is about to be called. -/
def UdpServer.asking (s : UdpServer) (d : Datagram) (query : Message) : UdpServer :=
  { s with
    stats := { s.stats with queries := s.stats.queries + 1 }
    responders := Function.update s.responders s.service.nextQuery
      (some (responderFor s.maxResponseSize d query))
    trace := .asked s.service.nextQuery d query :: .received d :: s.trace }

theorem Core.unused (h : Core s.service s) : s.responders s.service.nextQuery = none := by
  cases hr : s.responders s.service.nextQuery with
  | none => rfl
  | some r =>
    obtain ⟨d, query, hmem, -⟩ := h.responders _ r hr
    have hlt := h.below _ (mem_askedIn hmem)
    omega

theorem Core.asking_kept (h : Core s.service s) {i : ℕ} (hr : s.responders i = some r) :
    (s.asking d query).responders i = some r := by
  refine (Function.update_of_ne ?_ _ _).trans hr
  rintro rfl
  rw [h.unused] at hr
  cases hr

theorem heard_asking (h : Sound s) (d : Datagram) (query : Message) :
    Heard s.service.log (s.asking d query) := by
  have hreceived : Heard s.service.log { s with trace := .received d :: s.trace } :=
    h.heard.record (fun _ => rfl) rfl id (fun _ _ hr => hr) fun n hnone hsome => absurd hnone hsome
  refine hreceived.record (fun _ => rfl) rfl id (fun n r hr => h.core.asking_kept hr)
    fun n hnone hsome => ?_
  have heq : n = s.service.nextQuery := by
    by_contra hne
    exact hsome ((Function.update_of_ne hne ..).trans hnone)
  rw [heq]
  exact responses_fresh h.service

theorem core_asking (h : Sound s) (hopen : s.listening = true) (hparse : parse d.bytes = .ok query)
    (hqr : query.header.qr = false) (hlog : s.service.log ⊆ v.log)
    (hhandled : ∃ a, .handled s.service.nextQuery a ∈ v.log ∧ a.query = query ∧
      a.client = ⟨d.peer.addr, .udp⟩)
    (hnext : s.service.nextQuery < v.nextQuery) : Core v (s.asking d query) := by
  obtain ⟨hquery, hmalformed, hresponse⟩ := kinds_ok hparse
  rw [hqr] at hquery hresponse
  refine ⟨fun i d' query' hmem => ?_, fun i r hr => ?_, ?_, fun i hi => ?_, ?_, ?_, fun _ hmem => ?_,
    fun hclosed => ?_⟩
  · rcases List.mem_cons.mp hmem with heq | hmem
    · obtain ⟨rfl, rfl, rfl⟩ := Obs.asked.inj heq
      exact ⟨hparse, Function.update_self .., hhandled⟩
    · have hmem : .asked i d' query' ∈ s.trace := by simpa using hmem
      obtain ⟨hparse', hr, a, ha, hquery', hclient⟩ := h.core.asked i d' query' hmem
      exact ⟨hparse', h.core.asking_kept hr, a, hlog ha, hquery', hclient⟩
  · rcases Lib.Pairs.update_some hr with ⟨rfl, rfl⟩ | ⟨-, hr⟩
    · exact ⟨d, query, List.mem_cons_self, rfl⟩
    · obtain ⟨d', query', hmem, heq⟩ := h.core.responders i r hr
      exact ⟨d', query', List.mem_cons_of_mem _ (List.mem_cons_of_mem _ hmem), heq⟩
  · exact List.pairwise_cons.mpr ⟨h.core.below, h.core.numbers⟩
  · rcases List.mem_cons.mp hi with rfl | hi
    · exact hnext
    · exact (h.core.below i hi).trans hnext
  · show d :: (askedIn s.trace).map Prod.snd = (d :: receivedIn s.trace).filter isQuery
    rw [List.filter_cons_of_pos hquery, h.core.queries]
  · have hstats : (s.asking d query).stats = tallied s.stats d := by
      simp [UdpServer.asking, tallied, hquery, hmalformed, hresponse]
    rw [hstats]
    exact (h.core.counted.receive d).other rfl rfl rfl
  · have hmem : .closed ∈ s.trace := by simpa [UdpServer.asking] using hmem
    exact h.core.listening hopen hmem
  · exact absurd (hopen.symm.trans hclosed) Bool.noConfusion

/-- A query is handed to the handler. -/
theorem sound_asked (env : Random) (h : Sound s) (hopen : s.listening = true)
    (hparse : parse d.bytes = .ok query) (hqr : query.header.qr = false) (now later : ℕ)
    (works : Bool) :
    Sound ((s.asking d query).hear (s.service.handle cfg now later query ⟨d.peer.addr, .udp⟩) works) ∧
      ((s.asking d query).hear (s.service.handle cfg now later query ⟨d.peer.addr, .udp⟩)
        works).listening = s.listening := by
  have hservice : Serving.Sound (s.service.handle cfg now later query ⟨d.peer.addr, .udp⟩) :=
    Serving.sound_handle h.service env now later query _
  obtain ⟨hgoes, -, hhandled⟩ := goes_handle cfg env s.service now later query
    ⟨d.peer.addr, .udp⟩
  obtain ⟨fs, hlog, -⟩ := hgoes.log
  have hcore := core_asking h hopen hparse hqr hgoes.subset ⟨_, hhandled, rfl, rfl⟩
    (hservice.service.handled_lt hhandled)
  exact sound_hear (s := s.asking d query) hservice (hgoes.marked h.marked) hlog (heard_asking h d query)
    hcore works

/-- **A datagram comes in.** -/
theorem sound_receive (env : Random) (h : Sound s) (hopen : s.listening = true) (d : Datagram)
    (now later : ℕ) (works : Bool) : Sound (s.receive cfg d now later works) ∧
      (s.receive cfg d now later works).listening = s.listening := by
  unfold UdpServer.receive
  dsimp only
  cases hparse : parse d.bytes with
  | error e =>
    obtain ⟨hquery, hmalformed, hresponse⟩ := kinds_error hparse
    exact ⟨sound_dropped h hopen hquery (by simp [tallied, hquery, hmalformed, hresponse]), rfl⟩
  | ok query =>
    obtain ⟨hquery, hmalformed, hresponse⟩ := kinds_ok hparse
    dsimp only
    by_cases hqr : query.header.qr = true
    · rw [if_pos hqr]
      rw [hqr] at hquery hresponse
      exact ⟨sound_dropped h hopen hquery (by simp [tallied, hquery, hmalformed, hresponse]), rfl⟩
    · rw [if_neg hqr]
      exact sound_asked env h hopen hparse (by simpa using hqr) now later works

theorem sound_onReadable (env : Random) : ∀ (turns : ℕ) (receives : List Recv) {s : UdpServer},
    Sound s → s.listening = true → Sound (s.onReadable cfg turns receives)
  | 0, _, _, h, _ => h
  | _ + 1, [], _, h, _ => h
  | _ + 1, .again :: _, _, h, _ => h
  | turns + 1, .error :: rest, _, h, hopen => sound_onReadable env turns rest h hopen
  | turns + 1, .datagram d now later works :: rest, s, h, hopen => by
    obtain ⟨hsound, hlistening⟩ := sound_receive env h hopen d now later works
    exact sound_onReadable env turns rest hsound (hlistening.trans hopen)

theorem sound_init (p : QueryProcessor) (sh : Shared) (maxResponseSize : UInt16) :
    Sound { service := { processor := p, resolver := { shared := sh } }, maxResponseSize } where
  service := Serving.sound_start p sh
  marked _ _ h := by cases h
  heard := ⟨fun _ _ h => (by cases h), fun _ => Nat.zero_le _, fun _ _ _ h => (by cases h)⟩
  core := ⟨fun _ _ _ h => (by cases h), fun _ _ h => (by cases h), .nil, fun _ h => (by cases h), rfl,
    ⟨rfl, rfl, rfl, rfl, rfl⟩, fun _ h => (by cases h), fun h => (by cases h)⟩

theorem sound_close (h : Sound s) (hopen : s.listening = true) :
    Sound { s with listening := false, trace := .closed :: s.trace } := by
  refine ⟨h.service, h.marked, ?_, h.core.record rfl rfl (h.core.counted.other rfl rfl rfl)
    (fun hlistening => (by cases hlistening)) fun _ => ⟨rfl, h.core.listening hopen⟩⟩
  exact h.heard.record (fun _ => rfl) rfl (fun hlistening => by cases hlistening) (fun _ _ hr => hr)
    fun n hnone hsome => absurd hnone hsome

theorem sound_step {e : Event} (h : Sound s) (hs : Step cfg env s e s') : Sound s' := by
  obtain ⟨fuel, hs⟩ := hs
  cases e with
  | readable receives =>
    obtain ⟨hcan, hs⟩ := Option.ite_none_right_eq_some.mp hs
    obtain rfl := Option.some.inj hs
    exact sound_onReadable env _ _ h (Bool.and_eq_true_iff.mp hcan).1
  | server e works =>
    obtain ⟨v, hv, rfl⟩ := Option.map_eq_some_iff.mp hs
    exact sound_server h ⟨fuel, hv⟩ works
  | close =>
    obtain ⟨hopen, hs⟩ := Option.ite_none_right_eq_some.mp hs
    obtain rfl := Option.some.inj hs
    exact sound_close h hopen

theorem sound_run {sh : Shared} {maxResponseSize : UInt16} {es : List Event}
    (h : Run (Step cfg env)
      { service := { processor := p, resolver := { shared := sh } }, maxResponseSize } es s) : Sound s :=
  h.invariant (fun _ _ _ hs hstep => sound_step hs hstep) (sound_init p sh maxResponseSize)

/-! ### What goes out -/

/-- Every datagram that was sent answers one that was received. -/
structure Answered (s : UdpServer) : Prop where
  /-- exactly the queries are handed over, in order, each under a number of its own -/
  queries : (askedIn s.trace).map Prod.snd = (receivedIn s.trace).filter isQuery
  numbered : ((askedIn s.trace).map Prod.fst).Nodup
  /-- to the client, from the address that it asked, and no longer than it can take -/
  own : ∀ n out, .sent n out ∈ s.trace → ∃ d query m, .asked n d query ∈ s.trace ∧
    parse d.bytes = .ok query ∧ Echoes query m ∧ out.peer = d.peer ∧
    out.control.bind Cmsg.source = d.control.findSome? Cmsg.source ∧
    out.bytes = build m { maxSize := maxUdpResponseSize query.edns s.maxResponseSize } ∧
    out.bytes.length ≤ (maxUdpResponseSize query.edns s.maxResponseSize).toNat
  once : ∀ n, outcomes s.trace n ≤ 1
  /-- while the listener is there -/
  complete : s.listening = true → ∀ n d query, .asked n d query ∈ s.trace →
    outcomes s.trace n = 1 ∨ (∃ a, .handled n a ∈ s.service.log ∧ a.query = query ∧
      Denied a.processor a.now ⟨d.peer.addr, .udp⟩) ∨ .limited n ∈ s.service.log ∨
      Unresolved s.service n
  counted : Counted s.stats s.trace
  /-- and nothing after that -/
  closed : ∀ newer older, s.trace = newer ++ .closed :: older → newer = []

theorem Sound.own (h : Sound s) {out : Outgoing} (hout : .sent n out ∈ s.trace) : ∃ d query m,
    .asked n d query ∈ s.trace ∧ parse d.bytes = .ok query ∧ Echoes query m ∧
    m.header.qr = true ∧ out = (responderFor s.maxResponseSize d query).outgoing m := by
  obtain ⟨r, m, hr, hm, rfl⟩ := h.heard.sent n out hout
  obtain ⟨d, query, hasked, rfl⟩ := h.core.responders n r hr
  obtain ⟨hparse, -, a, ha, rfl, -⟩ := h.core.asked n d query hasked
  obtain ⟨a', ha', hechoes⟩ := h.service.service.log.responded n m hm
  rw [h.service.service.numbered ha' ha] at hechoes
  exact ⟨d, a.query, m, hasked, hparse, hechoes, h.marked n m hm, rfl⟩

theorem Sound.complete (h : Sound s) (hopen : s.listening = true)
    (hasked : .asked n d query ∈ s.trace) : outcomes s.trace n = 1 ∨
      (∃ a, .handled n a ∈ s.service.log ∧ a.query = query ∧
        Denied a.processor a.now ⟨d.peer.addr, .udp⟩) ∨ .limited n ∈ s.service.log ∨
      Unresolved s.service n := by
  obtain ⟨-, hr, a, ha, hquery, hclient⟩ := h.core.asked n d query hasked
  rcases h.service.exactlyOnce ha with hone | hdenied | hlimited | hunresolved
  · exact .inl ((h.heard.all hopen n _ hr).trans hone)
  · rw [hclient] at hdenied
    exact .inr (.inl ⟨a, ha, hquery, hdenied⟩)
  · exact .inr (.inr (.inl hlimited))
  · exact .inr (.inr (.inr hunresolved))

theorem Sound.closed (h : Sound s) {newer older : List Obs}
    (htrace : s.trace = newer ++ .closed :: older) : newer = [] := by
  have hmem : Obs.closed ∈ s.trace := by
    rw [htrace]
    exact List.mem_append_right _ List.mem_cons_self
  have hclosed : s.listening = false := by
    by_contra hopen
    exact h.core.listening (by simpa using hopen) hmem
  obtain ⟨rest, hrest, hnot⟩ := h.core.closed hclosed
  cases newer with
  | nil => rfl
  | cons o newer =>
    rw [hrest] at htrace
    obtain ⟨-, rfl⟩ := List.cons.inj htrace
    exact absurd (List.mem_append_right _ List.mem_cons_self) hnot

/-- A server for the clients on its own machine. -/
def localServer : UdpServer := { service := Serving.localService }

/-- A question for `a.`, type MX, from a stranger, on one of the machine's addresses. -/
def strangersQuery : Datagram where
  bytes := [0, 7, 0, 0, 0, 1, 0, 0, 0, 0, 0, 0, 1, 97, 0, 0, 15, 0, 1]
  peer := ⟨.inet 0x08080808, 4000, 0⟩
  control := [.other, .pktinfo ⟨2, 0x0A000001, 0x0A000001⟩]

/-- The query comes in after garbage. -/
def strangersTurn : List Event :=
  [.readable [.datagram { strangersQuery with bytes := [1, 2, 3] } 0 0 true, .error,
    .datagram strangersQuery 0 0 true, .again]]

theorem stranger_refused : ∃ s n out,
    Run (Step Resolver.Events.sampleConfig fun _ => 0) localServer strangersTurn s ∧
      .sent n out ∈ s.trace ∧ s.stats = ⟨1, 1, 0, 1, 0⟩ := by
  have hplay : (Run.applyAll (apply Resolver.Events.sampleConfig (fun _ => 0) 16) localServer
      strangersTurn).any (fun s => s.trace.any isSent && decide (s.stats = ⟨1, 1, 0, 1, 0⟩)) = true := by
    decide +kernel
  obtain ⟨s, hrun, hs⟩ := Run.exists_of_applyAll
    (fun _ _ _ h => (⟨16, h⟩ : Step Resolver.Events.sampleConfig (fun _ => 0) _ _ _)) hplay
  obtain ⟨hsent, hstats⟩ := Bool.and_eq_true_iff.mp hs
  obtain ⟨o, ho, hsent⟩ := List.any_eq_true.mp hsent
  cases o with
  | sent n out => exact ⟨s, n, out, hrun, ho, of_decide_eq_true hstats⟩
  | _ => cases hsent

/-- **No listener takes a datagram that was sent for a query**, so two servers never answer each other:
whoever it reaches drops it, and only counts it. -/
theorem responses_ignored {sh : Shared} {maxResponseSize : UInt16} {es : List Event}
    (h : Run (Step cfg env)
      { service := { processor := p, resolver := { shared := sh } }, maxResponseSize } es s)
    {out : Outgoing} (hout : .sent n out ∈ s.trace) (cfg' : Config) (s' : UdpServer)
    (hbytes : d.bytes = out.bytes) (now later : ℕ) (works : Bool) :
    (s'.receive cfg' d now later works).service = s'.service ∧
      (s'.receive cfg' d now later works).trace = .received d :: s'.trace := by
  obtain ⟨d₀, query, m, -, -, -, hqr, rfl⟩ := (sound_run h).own hout
  unfold UdpServer.receive
  dsimp only
  cases hparse : parse d.bytes with
  | error e => exact ⟨rfl, rfl⟩
  | ok m' =>
    rw [hbytes] at hparse
    have hmarked : m'.header.qr = true := (Wire.Datagram.qr_parse_build hparse).trans hqr
    dsimp only
    rw [if_pos hmarked]
    exact ⟨rfl, rfl⟩

/-- The refusal is thrown back. -/
theorem responses_ignored_stranger : ∃ (s : UdpServer) (n : ℕ) (out : Outgoing),
    .sent n out ∈ s.trace ∧ ∀ peer,
      (s.receive Resolver.Events.sampleConfig ⟨out.bytes, peer, []⟩ 0 0 true).trace =
        .received ⟨out.bytes, peer, []⟩ :: s.trace := by
  obtain ⟨s, n, out, hrun, hsent, -⟩ := stranger_refused
  exact ⟨s, n, out, hsent, fun peer => (responses_ignored hrun hsent _ s rfl 0 0 true).2⟩

end DNSentinel.Server.UdpServing
