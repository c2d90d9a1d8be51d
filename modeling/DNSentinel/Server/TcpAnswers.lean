import DNSentinel.Net.Outgoing
import DNSentinel.Server.Serving
import DNSentinel.Server.TcpServing

/-! # What a client gets over TCP

The TCP server with a tap on what it writes (`Net.Outgoing`): from the queries in the bytes that a client
sends on a connection to the responses in the bytes that it gets. Queries are answered in any order, the
handler is called again while a response is written, and connections come and go. -/

namespace DNSentinel.Server.TcpAnswers

open DNSentinel.Types Lib.Runs Wire.Builder Net Net.Tcp
open Net.Framing (frames asQuery received)
open Net.Outgoing Processor TcpServing
open Serving (Echoes echoes_makeResponse handle_respond)

variable {s s' : TcpServer} {e : TcpServing.Event} {r id : ℕ} {m : Message} {io : Io}

/-! ### The calls of the listener -/

/-- The responder is called with the response, or dropped. -/
def sent (p : QueryProcessor) (r now : ℕ) (client : ClientInfo) (response : Message) (io : Io) :
    Tcp.Event :=
  match (p.send now client response).2 with
  | some m => .respond r m io
  | none => .discard r

/-- What the handler does for the query on top of the stack. -/
def toldByHandler (p : QueryProcessor) (f : Frame) (c : Connection) (now later : ℕ) (io io' : Io) :
    List Tcp.Event :=
  let client : ClientInfo := ⟨c.peer, .tcp⟩
  let (p, decision) := p.handle now f.query client
  match decision with
  | .drop => [.discard f.responder, .handled io']
  | .respond response _ => [sent p f.responder later client response io, .handled io']
  | .resolve .. => [.handled io']

/-- The calls of the listener that an event comes down to. -/
def told (s : TcpServer) : TcpServing.Event → List Tcp.Event
  | .net e => [e]
  | .handle now later io io' =>
    match s.listener.stack with
    | [] => []
    | f :: _ =>
      ((s.listener.objects f.connection).map fun c =>
        toldByHandler s.processor f c now later io io').getD []
  | .call r now result io =>
    ((s.waiting r).map fun k => sent s.processor r now k.client
      (s.processor.answer k.checkChain k.response result).response io).toList
  | .reload _ => []

/-- The response may go out through the responder. -/
def Due (s : TcpServer) (r : ℕ) (m : Message) : Prop :=
  (∃ f ∈ s.listener.stack, f.responder = r ∧ Echoes f.query m) ∨
    ∃ k, s.waiting r = some k ∧ ∀ query, Echoes query k.response → Echoes query m

/-- What an event does besides calling the listener. -/
structure Tells (s : TcpServer) (e : TcpServing.Event) (s' : TcpServer) : Prop where
  run : Run.applyAll Tcp.apply s.listener (told s e) = some s'.listener
  due : ∀ r m io, .respond r m io ∈ told s e → Due s r m
  waiting : ∀ r k, s'.waiting r = some k → s.waiting r = some k ∨
    ∃ f ∈ s.listener.stack, f.responder = r ∧ Echoes f.query k.response

theorem tell_spec {es : List Tcp.Event} (h : s.tell es = some s') :
    Run.applyAll Tcp.apply s.listener es = some s'.listener ∧ s'.waiting = s.waiting := by
  obtain ⟨l, hl, rfl⟩ := Option.map_eq_some_iff.1 h
  exact ⟨hl, rfl⟩

theorem send_spec {now : ℕ} {client : ClientInfo} {response : Message} {es : List Tcp.Event}
    (h : s.send r now client response io es = some s') :
    Run.applyAll Tcp.apply s.listener (sent s.processor r now client response io :: es) =
      some s'.listener ∧ s'.waiting = s.waiting := by
  unfold TcpServer.send at h
  dsimp only at h
  unfold sent
  cases hout : (s.processor.send now client response).2 with
  | none | some m =>
    rw [hout] at h
    exact (tell_spec h :)

/-- What is sent repeats the query. -/
theorem echoes_sent {p : QueryProcessor} {r' now : ℕ} {client : ClientInfo} {response query : Message}
    {io' : Io} (h : .respond r m io' = sent p r' now client response io)
    (hechoes : Echoes query response) : r = r' ∧ Echoes query m := by
  unfold sent at h
  split at h
  · next m' hm' =>
    obtain ⟨rfl, rfl, -⟩ := Event.respond.inj h
    exact ⟨rfl, hechoes.send hm'⟩
  · cases h

theorem tells_handle {now later : ℕ} {io' : Io} (h : s.handle now later io io' = some s') :
    Tells s (.handle now later io io') s' := by
  unfold TcpServer.handle at h
  split at h
  · cases h
  · next f rest hstack =>
    obtain ⟨c, hc, h⟩ := Option.bind_eq_some_iff.1 h
    have htop : f ∈ s.listener.stack := hstack ▸ List.mem_cons_self ..
    have htold : told s (.handle now later io io') =
        toldByHandler s.processor f c now later io io' := by
      simp only [told, hstack, hc, Option.map_some, Option.getD_some]
    unfold toldByHandler at htold
    dsimp only at h htold
    cases hdecision : (s.processor.handle now f.query ⟨c.peer, .tcp⟩).2 with
    | drop =>
      rw [hdecision] at h htold
      obtain ⟨hrun, hwaiting⟩ := tell_spec h
      refine ⟨htold ▸ hrun, fun r m io'' hmem => ?_, fun r k hk => .inl (hwaiting ▸ hk)⟩
      rw [htold] at hmem
      simp at hmem
    | respond response event =>
      rw [hdecision] at h htold
      obtain ⟨hrun, hwaiting⟩ := send_spec h
      refine ⟨htold ▸ hrun, fun r m io'' hmem => .inl ⟨f, htop, ?_⟩, fun r k hk => .inl (hwaiting ▸ hk)⟩
      rw [htold, List.mem_cons, List.mem_singleton] at hmem
      rcases hmem with hsent | hlast
      · obtain ⟨rfl, hechoes⟩ := echoes_sent hsent (handle_respond hdecision)
        exact ⟨rfl, hechoes⟩
      · cases hlast
    | resolve q checkChain response =>
      rw [hdecision] at h htold
      obtain ⟨hrun, hwaiting⟩ := tell_spec h
      refine ⟨htold ▸ hrun, fun r m io'' hmem => ?_, fun r k hk => ?_⟩
      · rw [htold] at hmem
        simp at hmem
      · rw [hwaiting] at hk
        rcases Lib.Pairs.update_some hk with ⟨rfl, rfl⟩ | ⟨-, hk⟩
        · obtain ⟨-, -, rfl, -⟩ := handle_resolve hdecision
          exact .inr ⟨f, htop, rfl, echoes_makeResponse f.query _⟩
        · exact .inl hk

theorem tells_callback {now : ℕ} {result : Resolver.Data.Outcome}
    (h : s.callback r now result io = some s') : Tells s (.call r now result io) s' := by
  unfold TcpServer.callback at h
  split at h
  · cases h
  · next k hk =>
    obtain ⟨hrun, hwaiting⟩ := send_spec h
    have htold : told s (.call r now result io) = [sent s.processor r now k.client
        (s.processor.answer k.checkChain k.response result).response io] := by
      simp only [told, hk, Option.map_some, Option.toList_some]
    refine ⟨htold ▸ hrun, fun r' m io' hmem => ?_, fun r' k' hk' => ?_⟩
    · rw [htold, List.mem_singleton] at hmem
      have hself : Echoes k.response k.response := ⟨rfl, rfl, rfl, rfl, rfl⟩
      obtain ⟨rfl, -⟩ := echoes_sent hmem (hself.answer _ _ _)
      refine .inr ⟨k, hk, fun query hquery => ?_⟩
      exact (echoes_sent hmem (hquery.answer _ _ _)).2
    · rw [hwaiting] at hk'
      exact .inl (Lib.Pairs.update_none hk').2

/-- **What a step tells the listener.** -/
theorem tells_step (h : TcpServing.Step s e s') : Tells s e s' := by
  unfold TcpServing.Step at h
  cases e with
  | net e =>
    obtain ⟨hloop, h⟩ := Option.ite_none_right_eq_some.1 h
    obtain ⟨hrun, hwaiting⟩ := tell_spec h
    refine ⟨hrun, fun r m io hmem => ?_, fun r k hk => .inl (hwaiting ▸ hk)⟩
    obtain rfl := List.mem_singleton.1 hmem
    cases hloop
  | handle now later io io' => exact tells_handle h
  | call r now result io => exact tells_callback (Option.ite_none_right_eq_some.1 h).2
  | reload lists =>
    obtain rfl := Option.some.inj h
    exact ⟨rfl, fun r m io hmem => absurd hmem List.not_mem_nil, fun r k hk => .inl hk⟩

/-! ### The server, watched -/

structure Watched where
  server : TcpServer
  tap : Tap := { listener := server.listener }

def apply (w : Watched) (e : TcpServing.Event) : Option Watched :=
  (TcpServing.apply w.server e).bind fun server =>
    (Run.applyAll Outgoing.apply w.tap (told w.server e)).map fun tap => { server, tap }

/-- **One event of a run that is watched.** -/
def Step (w : Watched) (e : TcpServing.Event) (w' : Watched) : Prop := apply w e = some w'

/-- The tap follows the listener. -/
theorem exists_tap : ∀ (es : List Tcp.Event) (t : Tap) {l : TcpListener},
    Run.applyAll Tcp.apply t.listener es = some l →
      ∃ t', Run.applyAll Outgoing.apply t es = some t' ∧ t'.listener = l
  | [], t, _, h => ⟨t, rfl, Option.some.inj h⟩
  | e :: es, t, l, h => by
    obtain ⟨l₁, hl₁, hrest⟩ := Option.bind_eq_some_iff.1 h
    obtain ⟨t', ht', hlast⟩ := exists_tap es
      { listener := l₁
        responses := fun id => t.responses id ++ queued t.listener id e
        wire := fun id => t.wire id ++ written t.listener id e } hrest
    refine ⟨t', ?_, hlast⟩
    rw [Run.applyAll, Outgoing.apply, hl₁]
    exact ht'

/-- Every run can be watched. -/
theorem watched_run {es : List TcpServing.Event} (h : Run TcpServing.Step s es s') :
    ∀ tap : Tap, tap.listener = s.listener →
      ∃ tap', tap'.listener = s'.listener ∧ Run Step ⟨s, tap⟩ es ⟨s', tap'⟩ := by
  induction h with
  | nil s => exact fun tap hsame => ⟨tap, hsame, .nil _⟩
  | cons hstep _ ih =>
    intro tap hsame
    obtain ⟨tap₁, htap₁, hsame₁⟩ := exists_tap _ tap (hsame ▸ (tells_step hstep).run)
    obtain ⟨tap', hsame', hrest⟩ := ih tap₁ hsame₁
    refine ⟨tap', hsame', .cons ?_ hrest⟩
    refine Option.bind_eq_some_iff.2 ⟨_, hstep, Option.map_eq_some_iff.2 ⟨tap₁, htap₁, rfl⟩⟩

theorem run_server {w w' : Watched} {es : List TcpServing.Event} (h : Run Step w es w') :
    Run TcpServing.Step w.server es w'.server := by
  induction h with
  | nil w => exact .nil _
  | cons hstep _ ih =>
    obtain ⟨server, hserver, hstep⟩ := Option.bind_eq_some_iff.1 hstep
    obtain ⟨tap, -, rfl⟩ := Option.map_eq_some_iff.1 hstep
    exact .cons hserver ih

/-! ### Responses repeat their queries -/

/-- The responses repeat the queries that their responders were made for. -/
def Echoing (t : Tap) : Prop :=
  ∀ id, ∀ x ∈ t.responses id, ∃ query, .handed x.1 id query ∈ t.listener.log ∧ Echoes query x.2

theorem echoing_step {t t' : Tap} {e : Tcp.Event} (hflows : Flows t) (hechoing : Echoing t)
    (hdue : ∀ r m io, e = .respond r m io →
      ∃ id query, .handed r id query ∈ t.listener.log ∧ Echoes query m)
    (hstep : Outgoing.Step t e t') : Echoing t' := by
  obtain ⟨l', hl', rfl⟩ := Option.map_eq_some_iff.1 hstep
  have hpast := past_step hflows.sound hl'
  intro id x hx
  rcases List.mem_append.1 hx with hx | hx
  · obtain ⟨query, hquery, hechoes⟩ := hechoing id x hx
    exact ⟨query, hpast.log.subset hquery, hechoes⟩
  · obtain ⟨-, hr, io, he⟩ := mem_queued hx
    obtain ⟨query, hquery⟩ := hflows.ledger.responders _ hr
    obtain ⟨id', query', hquery', hechoes⟩ := hdue x.1 x.2 io he
    obtain ⟨-, rfl⟩ := hflows.ledger.unique hquery hquery'
    exact ⟨query, hpast.log.subset hquery, hechoes⟩

theorem echoing_run {es : List Tcp.Event} {t t' : Tap} (h : Run Outgoing.Step t es t')
    (hflows : Flows t) (hechoing : Echoing t)
    (hdue : ∀ r m io, .respond r m io ∈ es →
      ∃ id query, .handed r id query ∈ t.listener.log ∧ Echoes query m) :
    Flows t' ∧ Echoing t' ∧ Past t.listener t'.listener := by
  induction h with
  | nil t => exact ⟨hflows, hechoing, .refl _⟩
  | cons hstep _ ih =>
    obtain ⟨l', hl', rfl⟩ := Option.map_eq_some_iff.1 hstep
    have hpast := past_step hflows.sound hl'
    obtain ⟨hflows', hechoing', hpast'⟩ := ih (flows_step hflows hstep)
      (echoing_step hflows hechoing (fun r m io he => hdue r m io (he ▸ List.mem_cons_self ..)) hstep)
      fun r m io hmem => by
        obtain ⟨id, query, hquery, hechoes⟩ := hdue r m io (.tail _ hmem)
        exact ⟨id, query, hpast.log.subset hquery, hechoes⟩
    exact ⟨hflows', hechoing', hpast.trans hpast'⟩

/-- What holds of a server that is watched. -/
structure Answers (w : Watched) : Prop where
  same : w.tap.listener = w.server.listener
  flows : Flows w.tap
  echoing : Echoing w.tap
  waiting : ∀ r k, w.server.waiting r = some k →
    ∃ id query, .handed r id query ∈ w.tap.listener.log ∧ Echoes query k.response

theorem answers_step {w w' : Watched} (h : Answers w) (hstep : Step w e w') : Answers w' := by
  obtain ⟨server, hserver, hstep⟩ := Option.bind_eq_some_iff.1 hstep
  obtain ⟨tap, htap, rfl⟩ := Option.map_eq_some_iff.1 hstep
  obtain ⟨hrun, hdue, hwaiting⟩ := tells_step hserver
  have hstack : ∀ f ∈ w.server.listener.stack,
      .handed f.responder f.connection f.query ∈ w.tap.listener.log := by
    rw [← h.same]
    exact h.flows.ledger.stack
  have hqueries : ∀ r m io, .respond r m io ∈ told w.server e →
      ∃ id query, .handed r id query ∈ w.tap.listener.log ∧ Echoes query m := by
    intro r m io hmem
    rcases hdue r m io hmem with ⟨f, hf, rfl, hechoes⟩ | ⟨k, hk, hechoes⟩
    · exact ⟨f.connection, f.query, hstack f hf, hechoes⟩
    · obtain ⟨id, query, hquery, hheld⟩ := h.waiting r k hk
      exact ⟨id, query, hquery, hechoes query hheld⟩
  have htaps : Run Outgoing.Step w.tap (told w.server e) tap :=
    Run.of_applyAll (fun _ _ _ hstep => hstep) _ _ htap
  obtain ⟨hflows, hechoing, hpast⟩ := echoing_run htaps h.flows h.echoing hqueries
  refine ⟨?_, hflows, hechoing, fun r k hk => ?_⟩
  · obtain ⟨t', ht', hsame⟩ := exists_tap _ w.tap (h.same ▸ hrun)
    obtain rfl := Option.some.inj (htap.symm.trans ht')
    exact hsame
  · rcases hwaiting r k hk with hk | ⟨f, hf, rfl, hechoes⟩
    · obtain ⟨id, query, hquery, hheld⟩ := h.waiting r k hk
      exact ⟨id, query, hpast.log.subset hquery, hheld⟩
    · exact ⟨f.connection, f.query, hpast.log.subset (hstack f hf), hechoes⟩

theorem answers_run {config : TcpListenerConfig} {processor : QueryProcessor}
    {es : List TcpServing.Event} {w : Watched}
    (h : Run Step { server := { listener := { config }, processor } } es w) : Answers w := by
  refine h.invariant (P := Answers) (fun _ _ _ hw hstep => answers_step hw hstep) ?_
  refine ⟨rfl, flows_init config, fun id x hx => absurd hx List.not_mem_nil, fun r k hk => ?_⟩
  cases hk

/-! ### Conversations -/

/-- What goes back and forth on a connection. -/
structure Conversation (w : Watched) (id : ℕ) : Prop where
  /-- the client takes the responses off what it gets one after another, each as it was built -/
  read : frames.items (w.tap.wire id) <+: (w.tap.responses id).map bodyOf
  /-- while the connection is open, what has not been written is still to be -/
  kept : ∀ c, w.server.listener.objects id = some c → c.isOpen = true →
    w.tap.wire id ++ c.out = framesOf (w.tap.responses id)
  /-- no query is answered twice -/
  once : ((w.tap.responses id).map Prod.fst).Nodup
  /-- a response repeats a query that the client has sent on this connection -/
  own : ∀ x ∈ w.tap.responses id, ∃ query, .handed x.1 id query ∈ w.server.listener.log ∧
    Echoes query x.2 ∧ ∃ body ∈ frames.items (received w.server.listener id), asQuery body = some query

/-- **On every connection of every run the client gets whole responses to queries of its own**, in the
order in which they were given, however the kernel cuts up what is read and written. -/
theorem answers_streamed {config : TcpListenerConfig} {processor : QueryProcessor}
    {es : List TcpServing.Event} (h : Run TcpServing.Step { listener := { config }, processor } es s) :
    (∃ tap, Run Step { server := { listener := { config }, processor } } es ⟨s, tap⟩) ∧
      ∀ tap, Run Step { server := { listener := { config }, processor } } es ⟨s, tap⟩ →
        ∀ id, Conversation ⟨s, tap⟩ id := by
  constructor
  · obtain ⟨tap, -, hrun⟩ := watched_run h { listener := { config } } rfl
    exact ⟨tap, hrun⟩
  · intro tap hrun id
    obtain ⟨hsame, hflows, hechoing, -⟩ := answers_run hrun
    have hsame : tap.listener = s.listener := hsame
    refine ⟨hflows.read id, fun c hc => ?_, hflows.once id, fun x hx => ?_⟩
    · rw [← hsame] at hc
      exact hflows.entries id c hc
    · obtain ⟨query, hquery, hechoes⟩ := hechoing id x hx
      have hasked := hflows.asked hquery
      dsimp only at hquery hasked ⊢
      rw [hsame] at hquery hasked
      exact ⟨query, hquery, hechoes, hasked⟩

/-- Two queries in one piece; the kernel takes the first five bytes of the first answer, then the rest of
it and the first three of the second. -/
def pipelined : List TcpServing.Event :=
  [.net (.acceptable [.connection (.inet 0x7f000001) true]), .net .poll,
    .net (.ready 1 false (some (.data (0 :: 12 :: List.replicate 12 0 ++ 0 :: 12 :: List.replicate 12 0)))
      false {}),
    .handle 0 0 { sends := [.sent 5, .again] } {},
    .handle 0 0 { sends := [.sent 12, .again] } {}]

theorem answers_streamed_pipelined : ∃ w,
    Run Step { server := { processor := dropping } } pipelined w ∧ Conversation w 1 ∧
      (w.tap.responses 1).length = 2 ∧ (w.tap.wire 1).length = 17 ∧
      (frames.items (w.tap.wire 1)).length = 1 := by
  have hcomputed : (Run.applyAll apply { server := { processor := dropping } } pipelined).any
      (fun w => (w.tap.responses 1).length == 2 && (w.tap.wire 1).length == 17 &&
        (frames.items (w.tap.wire 1)).length == 1) = true := by
    decide +kernel
  obtain ⟨w, hrun, hw⟩ := Run.exists_of_applyAll (fun _ _ _ h => (h : Step _ _ _)) hcomputed
  simp only [Bool.and_eq_true, beq_iff_eq] at hw
  obtain ⟨⟨htwo, hwire⟩, hone⟩ := hw
  exact ⟨w, hrun, (answers_streamed (run_server hrun)).2 w.tap hrun 1, htwo, hwire, hone⟩

end DNSentinel.Server.TcpAnswers
