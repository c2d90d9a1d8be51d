import DNSentinel.Net.Connections
import DNSentinel.Server.Processor

/-! # The query processor behind the TCP listener

`QueryProcessor::handle` is the handler of the TCP listener. It drops the query and with it the
responder, calls the responder before it returns, or leaves the responder with `resolve()`, whose
callback calls it later, at any time. A connection's `pending` counts the responders that were dropped
along with those that are still to be called. -/

namespace DNSentinel.Server.TcpServing

open DNSentinel.Types Lib.Runs Policy.Addresses Policy.RateLimits Policy.Lists Resolver.Data Net
open Net.Tcp Net.Connections Processor

/-! ### The system -/

/-- What the callback that `handle` gives to `resolve()` has captured, besides the responder. -/
structure Held where
  client : ClientInfo
  checkChain : Bool
  response : Message

structure TcpServer where
  listener : TcpListener := {}
  processor : QueryProcessor
  /-- the responders that callbacks hold -/
  waiting : ℕ → Option Held := fun _ => none

inductive Event where
  | net (e : Tcp.Event)
  /-- the handler runs; the clock is read for the rate limit, then for the response -/
  | handle (now later : ℕ) (io io' : Io)
  /-- the callback that holds a responder is called -/
  | call (r now : ℕ) (result : Outcome) (io : Io)
  | reload (lists : Blocklists)

/-- What the event loop does on its own, without the handler. -/
def isLoopEvent : Tcp.Event → Bool
  | .acceptable _ => true
  | .poll => true
  | .ready .. => true
  | .timer _ => true
  | _ => false

namespace TcpServer

/-- The listener is called. -/
def tell (s : TcpServer) (es : List Tcp.Event) : Option TcpServer :=
  (Run.applyAll Tcp.apply s.listener es).map fun listener => { s with listener }

/-- The response goes out through the responder, or response rate limiting drops both. -/
def send (s : TcpServer) (r now : ℕ) (client : ClientInfo) (response : Message) (io : Io)
    (es : List Tcp.Event) : Option TcpServer :=
  let (processor, out) := s.processor.send now client response
  { s with processor }.tell
    (match out with
      | some m => .respond r m io :: es
      | none => .discard r :: es)

/-- The handler runs for the query on top of the stack, and returns. -/
def handle (s : TcpServer) (now later : ℕ) (io io' : Io) : Option TcpServer :=
  match s.listener.stack with
  | [] => none
  | f :: _ =>
    (s.listener.objects f.connection).bind fun c =>
      let client : ClientInfo := ⟨c.peer, .tcp⟩
      let (processor, decision) := s.processor.handle now f.query client
      let s := { s with processor }
      match decision with
      | .drop => s.tell [.discard f.responder, .handled io']
      | .respond response _ => s.send f.responder later client response io [.handled io']
      | .resolve _ checkChain response =>
        { s with waiting := Function.update s.waiting f.responder (some ⟨client, checkChain, response⟩) }.tell
          [.handled io']

/-- The callback of a resolution is called. -/
def callback (s : TcpServer) (r now : ℕ) (result : Outcome) (io : Io) : Option TcpServer :=
  match s.waiting r with
  | none => none
  | some k =>
    { s with waiting := Function.update s.waiting r none }.send r now k.client
      (s.processor.answer k.checkChain k.response result).response io []

end TcpServer

/-- An event, if it can happen. -/
def apply (s : TcpServer) : Event → Option TcpServer
  | .net e => if isLoopEvent e then s.tell [e] else none
  | .handle now later io io' => s.handle now later io io'
  | .call r now result io => if s.listener.stack.isEmpty then s.callback r now result io else none
  | .reload lists => some { s with processor := { s.processor with lists } }

/-- **One event of a run.** -/
def Step (s : TcpServer) (e : Event) (s' : TcpServer) : Prop := apply s e = some s'

/-! ### The listener's part of a run -/

variable {s s' : TcpServer} {c : Connection} {id : ℕ}

theorem run_tell {es : List Tcp.Event} (h : s.tell es = some s') :
    Run Tcp.Step s.listener es s'.listener := by
  obtain ⟨l, hl, rfl⟩ := Option.map_eq_some_iff.1 h
  exact Run.of_applyAll (fun _ _ _ hstep => hstep) es s.listener hl

theorem run_send {r now : ℕ} {client : ClientInfo} {response : Message} {io : Io}
    {es : List Tcp.Event} (h : s.send r now client response io es = some s') :
    ∃ es', Run Tcp.Step s.listener es' s'.listener := by
  have hrun := run_tell h
  exact ⟨_, hrun⟩

theorem run_listener {e : Event} (h : Step s e s') :
    ∃ es, Run Tcp.Step s.listener es s'.listener := by
  unfold Step at h
  cases e with
  | net e =>
    simp only [apply] at h
    split_ifs at h
    exact ⟨_, run_tell h⟩
  | handle now later io io' =>
    simp only [apply, TcpServer.handle] at h
    split at h
    · cases h
    · obtain ⟨c, -, h⟩ := Option.bind_eq_some_iff.1 h
      split at h
      · have hrun := run_tell h
        exact ⟨_, hrun⟩
      · have hrun := run_send h
        exact hrun
      · have hrun := run_tell h
        exact ⟨_, hrun⟩
  | call r now result io =>
    simp only [apply, TcpServer.callback] at h
    split_ifs at h
    split at h
    · cases h
    · have hrun := run_send h
      exact hrun
  | reload lists =>
    obtain rfl := Option.some.inj h
    exact ⟨[], .nil _⟩

theorem sound_server {config : TcpListenerConfig} {processor : QueryProcessor} {es : List Event}
    (h : Run Step { listener := { config }, processor } es s) : Sound s.listener := by
  refine h.invariant (P := fun s => Sound s.listener) (fun s e s' hs hstep => ?_) (sound_init config)
  obtain ⟨es, hrun⟩ := run_listener hstep
  exact hrun.invariant (P := Sound) (fun _ _ _ hl hstep => sound_step hl hstep) hs

/-! ### Connections are reclaimed -/

/-- `pending` counts the queries that are to be answered, so that a connection with none is closed:
at once if the client has shut down its side, and when the idle timer fires. -/
structure Reclaimed (s : TcpServer) (id : ℕ) (c : Connection) : Prop where
  pending : c.pending = outstanding s.listener id
  halfClosed : id ∉ busy s.listener → outstanding s.listener id = 0 → c.out = [] → c.peerDone = false
  armed : ∃ tid, s.listener.timers tid = some (.idle id)
  idle : outstanding s.listener id = 0 → ∀ tid s', s.listener.timers tid = some (.idle id) →
    Step s (.net (.timer tid)) s' → id ∉ s'.listener.connections

/-- **A connection is reclaimed exactly if no responder of its queries was destroyed without having
been called.** -/
theorem reclaimed_iff {config : TcpListenerConfig} {processor : QueryProcessor} {es : List Event}
    (h : Run Step { listener := { config }, processor } es s) (hc : s.listener.objects id = some c)
    (hopen : c.isOpen = true) : Reclaimed s id c ↔ discards s.listener id = 0 := by
  have hsound := sound_server h
  have hcount := hsound.counted.entries id c hc hopen
  constructor
  · intro hreclaimed
    have hexact := hreclaimed.pending
    omega
  · intro hkept
    have hexact : c.pending = outstanding s.listener id := by omega
    obtain ⟨harmed, htimer⟩ := hsound.timed.entries id c hc
    refine ⟨hexact, fun hidle hnone hout => ?_, ?_, fun hnone tid s' htid hstep => ?_⟩
    · rcases (hsound.settled id c hc hopen).due with hbusy | hdone | hpending | hunsent
      · exact absurd ((hsound.nested.entries id c hc).1 hbusy) hidle
      · exact hdone
      · exact absurd (hexact.trans hnone) hpending
      · exact absurd hout hunsent
    · obtain ⟨tid, htid⟩ := Option.isSome_iff_exists.1 (harmed.1 hopen)
      exact ⟨tid, (htimer tid).1 htid⟩
    · cases run_tell hstep with
      | cons hfires hrest =>
        cases hrest
        exact timer_closes hsound hc htid (hexact.trans hnone) hfires

/-! ### A query that is dropped -/

/-- Strangers get no answer. -/
def dropping : QueryProcessor :=
  { checks := { rateLimit := .create { qps := 0 }, access := { deny := .drop } } }

/-- A connection from `peer`, and a query without a question on it. -/
def firstQuery (peer : SockAddr) : List Event :=
  [.net (.acceptable [.connection peer true]), .net .poll,
    .net (.ready 1 false (some (.data (0 :: 12 :: List.replicate 12 0))) false {}),
    .handle 0 0 { sends := [.sent 14] } {}]

/-- The query of a client in the network is answered, and its connection reclaimed. -/
theorem reclaimed_iff_answered : ∃ s c,
    Run Step { processor := dropping } (firstQuery (.inet 0x7f000001)) s ∧
      s.listener.objects 1 = some c ∧ c.isOpen = true ∧ Reclaimed s 1 c := by
  have hcomputed : (Run.applyAll apply { processor := dropping } (firstQuery (.inet 0x7f000001))).any
      (fun s => (s.listener.objects 1).any (·.isOpen) && discards s.listener 1 == 0) = true := by
    decide +kernel
  obtain ⟨s, hrun, hs⟩ := Run.exists_of_applyAll (fun _ _ _ h => (h : Step _ _ _)) hcomputed
  rw [Bool.and_eq_true] at hs
  obtain ⟨c, hc, hopen⟩ := (Option.any_eq_true _ _).1 hs.1
  exact ⟨s, c, hrun, hc, hopen, (reclaimed_iff hrun hc hopen).2 (by simpa using hs.2)⟩

/-- A stranger's query is dropped, its responder with it. The stranger shuts down its side and the idle
timer fires. -/
def droppedQuery : List Event :=
  firstQuery (.inet 0x08080808) ++
    [.net .poll, .net (.ready 1 false (some .eof) false {}), .net (.timer 2)]

/-- The connection stays open, and waits for an answer that no responder is left to give. -/
theorem dropped_query_pins_connection : ∃ s, Run Step { processor := dropping } droppedQuery s ∧
    s.listener.connections = [1] ∧ s.listener.responders = [] ∧ s.listener.stack = [] ∧
    (s.listener.objects 1).map (fun c => (c.isOpen, c.pending, c.out, c.peerDone)) =
      some (true, 1, [], true) := by
  have hcomputed : (Run.applyAll apply { processor := dropping } droppedQuery).any (fun s =>
      s.listener.connections == [1] && s.listener.responders == [] && s.listener.stack.isEmpty &&
        (s.listener.objects 1).map (fun c => (c.isOpen, c.pending, c.out, c.peerDone)) ==
          some (true, 1, [], true)) = true := by
    decide +kernel
  obtain ⟨s, hrun, hs⟩ := Run.exists_of_applyAll (fun _ _ _ h => (h : Step _ _ _)) hcomputed
  simp only [Bool.and_eq_true, beq_iff_eq, List.isEmpty_iff] at hs
  obtain ⟨⟨⟨hconnections, hresponders⟩, hstack⟩, hobject⟩ := hs
  exact ⟨s, hrun, hconnections, hresponders, hstack, hobject⟩

end DNSentinel.Server.TcpServing
