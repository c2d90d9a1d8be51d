import DNSentinel.Lib.Streams
import DNSentinel.Net.Connections

/-! # Messages in a byte stream

What a client sends on a connection is a stream of frames, which the kernel cuts up as it likes.
`process_messages` takes the frames off the buffer by an offset, and the handler it calls may lead back
into the listener before the offset is applied. The frames handed over, the rest of the buffer behind the
offset and the bytes received always fit together (`Framed`). -/

namespace DNSentinel.Net.Framing

open DNSentinel.Types Lib.Runs Lib.Streams Wire.Builder Wire.Parser Tcp Tcp.TcpListener Connections

variable {l l' : TcpListener} {c : Connection} {config : TcpListenerConfig} {id : ℕ}

/-! ### Frames -/

theorem frame_length {bytes body : List UInt8} (h : frame bytes = some body) :
    2 + body.length ≤ bytes.length := by
  unfold frame at h
  split at h
  · next hi lo rest =>
    dsimp only at h
    split_ifs at h with hshort
    obtain rfl := Option.some.inj h
    simp only [List.length_cons, List.length_take]
    omega
  · cases h

theorem frame_append {bytes body : List UInt8} (more : List UInt8) (h : frame bytes = some body) :
    frame (bytes ++ more) = some body := by
  unfold frame at h
  split at h
  · next hi lo rest =>
    dsimp only at h
    split_ifs at h with hshort
    rw [List.cons_append, List.cons_append, frame, if_neg (by rw [List.length_append]; omega),
      List.take_append_of_le_length (by omega)]
    exact h
  · cases h

/-- The frames of a stream. -/
def frames : Decoder UInt8 (List UInt8) where
  next bytes := (frame bytes).map fun body => (body, bytes.drop (2 + body.length))
  shrinks := by
    intro bytes body rest h
    obtain ⟨body', hbody, heq⟩ := Option.map_eq_some_iff.1 h
    obtain ⟨rfl, rfl⟩ := Prod.mk.inj heq
    have hlength := frame_length hbody
    rw [List.length_drop]
    omega
  stable := by
    intro bytes body rest more h
    obtain ⟨body', hbody, heq⟩ := Option.map_eq_some_iff.1 h
    obtain ⟨rfl, rfl⟩ := Prod.mk.inj heq
    rw [frame_append more hbody, Option.map_some, List.drop_append_of_le_length (frame_length hbody)]

/-- The query in a frame. -/
def asQuery (body : List UInt8) : Option Message :=
  match parse body with
  | .ok query => if query.header.qr then none else some query
  | .error _ => none

theorem turn_query {used used' : ℕ} {query : Message} (h : turn c used = .query query used') :
    ∃ body, frame (c.input.drop used) = some body ∧ asQuery body = some query ∧
      used' = used + 2 + body.length ∧ c.pending < kMaxPipelined := by
  unfold turn at h
  split_ifs at h with hgo
  rw [Bool.and_eq_true, decide_eq_true_eq] at hgo
  split at h
  · cases h
  · next body hbody =>
    split at h
    · next q hparse =>
      split_ifs at h with hqr
      obtain ⟨rfl, rfl⟩ := Turn.query.inj h
      exact ⟨body, hbody, by simp only [asQuery, hparse, if_neg hqr], rfl, hgo.2⟩
    · cases h

/-! ### What has been received and handed over -/

def receivedIn (id : ℕ) : Fact → Option (List UInt8)
  | .received id' bytes => if id' = id then some bytes else none
  | _ => none

def handedIn (id : ℕ) : Fact → Option Message
  | .handed _ id' query => if id' = id then some query else none
  | _ => none

/-- The bytes received on a connection. -/
def received (l : TcpListener) (id : ℕ) : List UInt8 :=
  (l.log.filterMap (receivedIn id)).reverse.flatten

/-- The queries of a connection that the handler has been called with. -/
def handed (l : TcpListener) (id : ℕ) : List Message := (l.log.filterMap (handedIn id)).reverse

/-- How far `process_messages` has come in the buffer. -/
def offset (l : TcpListener) (id : ℕ) : ℕ :=
  ((l.stack.find? fun f => f.connection == id).map Frame.used).getD 0

/-- The frames taken off, and what is left of the buffer, are what has been received. -/
structure Intact (bytes : List UInt8) (queries : List Message) (used : ℕ) (input : List UInt8) :
    Prop where
  inside : used ≤ input.length
  taken : ∃ bodies, frames.Taken bytes bodies (input.drop used) ∧
    bodies.map asQuery = queries.map some

section Intact

variable {bytes body input : List UInt8} {queries : List Message} {query : Message} {used : ℕ}

theorem Intact.initial (h : Intact bytes queries used input) :
    queries.map some <+: (frames.items bytes).map asQuery := by
  obtain ⟨bodies, htaken, hbodies⟩ := h.taken
  rw [htaken.items, List.map_append, hbodies]
  exact List.prefix_append _ _

theorem Intact.receive (h : Intact bytes queries used input) (more : List UInt8) :
    Intact (bytes ++ more) queries used (input ++ more) := by
  obtain ⟨hinside, bodies, htaken, hbodies⟩ := h
  refine ⟨?_, bodies, ?_, hbodies⟩
  · rw [List.length_append]
    omega
  · rw [List.drop_append_of_le_length hinside]
    exact htaken.append more

theorem Intact.take (h : Intact bytes queries used input) (hbody : frame (input.drop used) = some body)
    (hquery : asQuery body = some query) :
    Intact bytes (queries ++ [query]) (used + 2 + body.length) input := by
  obtain ⟨hinside, bodies, htaken, hbodies⟩ := h
  have hlength := frame_length hbody
  rw [List.length_drop] at hlength
  have hnext : frames.next (input.drop used) =
      some (body, input.drop (used + 2 + body.length)) := by
    show (frame (input.drop used)).map _ = _
    rw [hbody, Option.map_some, List.drop_drop, Nat.add_assoc]
  refine ⟨by omega, bodies ++ [body], htaken.snoc hnext, ?_⟩
  rw [List.map_append, hbodies, List.map_append, List.map_singleton, List.map_singleton, hquery]

theorem Intact.erase (h : Intact bytes queries used input) :
    Intact bytes queries 0 (input.drop used) :=
  ⟨Nat.zero_le _, h.taken⟩

end Intact

/-! ### Moves -/

theorem offset_idle (h : id ∉ busy l) : offset l id = 0 := by
  have hnone : (l.stack.find? fun f => f.connection == id) = none := by
    rw [List.find?_eq_none]
    intro f hf hid
    exact h (List.mem_map.2 ⟨f, hf, beq_iff_eq.1 hid⟩)
  rw [offset, hnone]
  rfl

theorem offset_top {f : Frame} {rest : List Frame} (hstack : l.stack = f :: rest)
    (hf : f.connection = id) : offset l id = f.used := by
  rw [offset, hstack, List.find?_cons_of_pos (by simpa using hf)]
  rfl

theorem offset_below {f : Frame} {rest : List Frame} (hstack : l.stack = f :: rest)
    (hf : f.connection ≠ id) : offset l id = offset { l with stack := rest } id := by
  rw [offset, hstack, List.find?_cons_of_neg (by simpa using hf)]
  rfl

theorem offset_hand (l : TcpListener) (c : Connection) (query : Message) (used : ℕ) (after : After) :
    offset (l.hand c query used after).1 c.id = used :=
  offset_top (f := ⟨c.id, used, l.nextResponder, query, after⟩) rfl rfl

theorem handed_hand (l : TcpListener) (c : Connection) (query : Message) (used : ℕ) (after : After)
    (id : ℕ) : handed (l.hand c query used after).1 id =
      handed l id ++ if c.id = id then [query] else [] := by
  show (List.filterMap (handedIn id) (.handed l.nextResponder c.id query :: l.log)).reverse = _
  by_cases hid : c.id = id
  · rw [List.filterMap_cons_some (by rw [handedIn, if_pos hid]), List.reverse_cons, if_pos hid]
    rfl
  · rw [List.filterMap_cons_none (by rw [handedIn, if_neg hid]), if_neg hid, List.append_nil]
    rfl

theorem received_receive (l : TcpListener) (bytes : List UInt8) (id id' : ℕ) :
    received { l with log := .received id' bytes :: l.log } id =
      received l id ++ if id' = id then bytes else [] := by
  show (List.filterMap (receivedIn id) (.received id' bytes :: l.log)).reverse.flatten = _
  by_cases hid : id' = id
  · rw [List.filterMap_cons_some (by rw [receivedIn, if_pos hid]), List.reverse_cons, if_pos hid,
      List.flatten_append, List.flatten_singleton]
    rfl
  · rw [List.filterMap_cons_none (by rw [receivedIn, if_neg hid]), if_neg hid, List.append_nil]
    rfl

/-- A move does nothing to the streams of other connections. -/
theorem move_others {a b : TcpListener × Connection} (hab : Move a b) (hid : id ≠ a.2.id) :
    received b.1 id = received a.1 id ∧ handed b.1 id = handed a.1 id ∧
      offset b.1 id = offset a.1 id := by
  cases hab with
  | receive l c bytes hopen =>
    refine ⟨?_, rfl, rfl⟩
    rw [received_receive, if_neg (Ne.symm hid), List.append_nil]
  | first l c query used after hopen hidle hturn =>
    refine ⟨rfl, ?_, ?_⟩
    · rw [handed_hand, if_neg (Ne.symm hid), List.append_nil]
    · exact offset_below (f := ⟨c.id, used, l.nextResponder, query, after⟩) rfl (Ne.symm hid)
  | next l c f rest query used hopen hstack hf hturn =>
    refine ⟨rfl, ?_, ?_⟩
    · rw [handed_hand, if_neg (Ne.symm hid), List.append_nil]
      rfl
    · rw [offset_below hstack (hf ▸ Ne.symm hid)]
      exact offset_below (f := ⟨c.id, used, l.nextResponder, query, f.after⟩) rfl (Ne.symm hid)
  | leave l c f rest hstack hf => exact ⟨rfl, rfl, (offset_below hstack (hf ▸ Ne.symm hid)).symm⟩
  | _ => exact ⟨rfl, rfl, rfl⟩

/-- What a move does to the stream of its connection. -/
theorem move_intact {a b : TcpListener × Connection} (hab : Move a b)
    (hnested : Nested (a.1.put a.2)) (hopen : b.2.isOpen = true)
    (h : Intact (received a.1 a.2.id) (handed a.1 a.2.id) (offset a.1 a.2.id) a.2.input) :
    Intact (received b.1 a.2.id) (handed b.1 a.2.id) (offset b.1 a.2.id) b.2.input := by
  obtain ⟨hbusy, -⟩ := forall_put.1 hnested.entries
  cases hab with
  | close l c hopen' => exact absurd hopen Bool.false_ne_true
  | receive l c bytes hopen' =>
    rw [received_receive, if_pos rfl]
    exact h.receive bytes
  | first l c query used after hopen' hidle hturn =>
    obtain ⟨body, hbody, hquery, rfl, -⟩ := turn_query hturn
    have hzero : offset l c.id = 0 := offset_idle fun hmem =>
      absurd (hidle.symm.trans (hbusy.2 hmem)) Bool.false_ne_true
    have htop := offset_hand l { c with processing := true } query (0 + 2 + body.length) after
    rw [handed_hand, if_pos rfl, htop]
    rw [hzero] at h
    exact h.take hbody hquery
  | next l c f rest query used hopen' hstack hf hturn =>
    obtain ⟨body, hbody, hquery, rfl, -⟩ := turn_query hturn
    have htop := offset_hand { l with stack := rest } c query (f.used + 2 + body.length) f.after
    rw [handed_hand, if_pos rfl, htop]
    rw [offset_top hstack hf] at h
    exact h.take hbody hquery
  | leave l c f rest hstack hf =>
    have hgone : c.id ∉ busy { l with stack := rest } := by
      have hnodup : (busy l).Nodup := hnested.nodup
      rw [busy_top hstack hf] at hnodup
      exact (List.nodup_cons.1 hnodup).1
    have hzero : offset { l with stack := rest } c.id = 0 := offset_idle hgone
    rw [offset_top hstack hf] at h
    rw [hzero]
    have hc : c.isOpen = true := hopen
    dsimp only
    rw [if_pos hc]
    exact h.erase
  | _ => exact h

/-! ### Runs -/

/-- The streams of all connections are intact. -/
structure Framed (l : TcpListener) : Prop where
  intact : ∀ id c, l.objects id = some c → c.isOpen = true →
    Intact (received l id) (handed l id) (offset l id) c.input
  initial : ∀ id, (handed l id).map some <+: (frames.items (received l id)).map asQuery
  room : ∀ id c, l.objects id = some c → c.pending ≤ kMaxPipelined
  unknown : ∀ id, l.nextId ≤ id → received l id = [] ∧ handed l id = []

/-- Only an open connection has a stream that changes. -/
theorem move_closed {a b : TcpListener × Connection} (hab : Move a b) (hclosed : b.2.isOpen = false) :
    received b.1 a.2.id = received a.1 a.2.id ∧ handed b.1 a.2.id = handed a.1 a.2.id := by
  cases hab with
  | receive l c bytes hopen | first l c query used after hopen hidle hturn
  | next l c f rest query used hopen hstack hf hturn =>
    exact absurd (hclosed.symm.trans hopen) Bool.false_ne_true
  | _ => exact ⟨rfl, rfl⟩

theorem move_room {a b : TcpListener × Connection} (hab : Move a b)
    (h : a.2.pending ≤ kMaxPipelined) : b.2.pending ≤ kMaxPipelined := by
  cases hab with
  | reply l c r response hopen hr =>
    show c.pending - 1 ≤ kMaxPipelined
    have hroom : c.pending ≤ kMaxPipelined := h
    omega
  | first l c query used after hopen hidle hturn
  | next l c f rest query used hopen hstack hf hturn =>
    obtain ⟨body, -, -, -, hroom⟩ := turn_query hturn
    exact hroom
  | _ => exact h

theorem framed_move {a b : TcpListener × Connection} (hab : Move a b)
    (hregistered : Registered (a.1.put a.2)) (hnested : Nested (a.1.put a.2))
    (h : Framed (a.1.put a.2)) : Framed (b.1.put b.2) := by
  obtain ⟨⟨-, hold, -⟩, -⟩ := forall_put.1 hregistered.entries
  obtain ⟨hintact, hothers⟩ := forall_put.1 h.intact
  obtain ⟨hroom, hrooms⟩ := forall_put.1 h.room
  obtain ⟨hobjects, hsame⟩ := moves_frame (.single hab)
  have hother : ∀ id, id ≠ b.2.id → received b.1 id = received a.1 id ∧
      handed b.1 id = handed a.1 id ∧ offset b.1 id = offset a.1 id := fun id hne =>
    move_others hab (hsame ▸ hne)
  refine ⟨forall_put.2 ⟨fun hopen => ?_, fun id c hne hc hopen => ?_⟩, fun id => ?_,
    forall_put.2 ⟨?_, fun id c hne hc => ?_⟩, fun id hid => ?_⟩
  · have hmove := move_intact hab hnested hopen (hintact (move_open hab hopen))
    rwa [← hsame] at hmove
  · obtain ⟨hreceived, hhanded, hoffset⟩ := hother id hne
    show Intact (received b.1 id) (handed b.1 id) (offset b.1 id) c.input
    rw [hreceived, hhanded, hoffset]
    exact hothers id c (hsame ▸ hne) (hobjects ▸ hc) hopen
  · show (handed b.1 id).map some <+: (frames.items (received b.1 id)).map asQuery
    by_cases hne : id = b.2.id
    · subst hne
      cases hopen : b.2.isOpen with
      | true =>
        have hmove := move_intact hab hnested hopen (hintact (move_open hab hopen))
        rw [hsame]
        exact hmove.initial
      | false =>
        obtain ⟨hreceived, hhanded⟩ := move_closed hab hopen
        rw [hsame, hreceived, hhanded]
        exact h.initial a.2.id
    · obtain ⟨hreceived, hhanded, -⟩ := hother id hne
      rw [hreceived, hhanded]
      exact h.initial id
  · exact move_room hab hroom
  · exact hrooms id c (hsame ▸ hne) (hobjects ▸ hc)
  · have hnext : b.1.nextId = a.1.nextId := by cases hab <;> rfl
    have hid' : a.1.nextId ≤ id := hnext ▸ hid
    have hne : id ≠ b.2.id := by
      have hlt : a.2.id < a.1.nextId := hold
      omega
    obtain ⟨hreceived, hhanded, -⟩ := hother id hne
    show received b.1 id = [] ∧ handed b.1 id = []
    rw [hreceived, hhanded]
    exact h.unknown id hid'

theorem framed_accept (peer : DNSentinel.Policy.Addresses.SockAddr) (watched : Bool) (hsound : Sound l)
    (h : Framed l) : Framed (l.acceptOne peer watched) := by
  unfold acceptOne
  dsimp only
  split_ifs
  · exact h
  · exact ⟨h.intact, h.initial, h.room, fun id hid => h.unknown id (Nat.le_of_succ_le hid)⟩
  · obtain ⟨hreceived, hhanded⟩ := h.unknown l.nextId le_rfl
    refine ⟨forall_put.2 ⟨fun _ => ?_, fun id c _ hc hopen => h.intact id c hc hopen⟩, h.initial,
      forall_put.2 ⟨Nat.zero_le _, fun id c _ hc => h.room id c hc⟩,
      fun id hid => h.unknown id (Nat.le_of_succ_le hid)⟩
    have hzero : offset l l.nextId = 0 := offset_idle fun hmem =>
      absurd (hsound.nested.below _ hmem) (lt_irrefl _)
    show Intact (received l l.nextId) (handed l l.nextId) (offset l l.nextId) []
    rw [hreceived, hhanded, hzero]
    exact ⟨le_rfl, [], .nil [], rfl⟩

theorem framed_effect {e : Event} (hab : Effect e l l') (hsound : Sound l) (h : Framed l) :
    Framed l' := by
  cases hab with
  | focus hc hmoves =>
    have hkeep := moves_keep (P := fun s => (Registered (s.1.put s.2) ∧ Nested (s.1.put s.2)) ∧
        Framed (s.1.put s.2))
      (fun a b hab ha => ⟨⟨registered_move hab ha.1.1, nested_move hab ha.1.1 ha.1.2⟩,
        framed_move hab ha.1.1 ha.1.2 ha.2⟩) hmoves
      (by rw [put_self hc]; exact ⟨⟨hsound.registered, hsound.nested⟩, h⟩)
    exact hkeep.2
  | accept peer watched => exact framed_accept peer watched hsound h
  | _ => exact ⟨h.intact, h.initial, h.room, h.unknown⟩

/-- **The streams are intact in every state of a run.** -/
theorem framed_run {es : List Event} (h : Run Step { config } es l) : Sound l ∧ Framed l := by
  refine h.invariant (P := fun l => Sound l ∧ Framed l) (fun l e l' hl hstep => ?_)
    ⟨sound_init config, ⟨?_, fun _ => List.nil_prefix, ?_, ?_⟩⟩
  · exact effects_keep (P := fun l => Sound l ∧ Framed l)
      (fun a b hab ha => ⟨sound_effect hab ha.1, framed_effect hab ha.1 ha.2⟩)
      (step_effects hl.1 hstep) hl
  · rintro id c ⟨⟩
  · rintro id c ⟨⟩
  · exact fun _ _ => ⟨rfl, rfl⟩

/-! ### Answers -/

/-- The next query of a connection, if it has all arrived. -/
def upNext (l : TcpListener) (c : Connection) : Option Message :=
  (frame (c.input.drop (offset l c.id))).bind asQuery

/-- How many bytes the kernel takes, if it is given so many. -/
def accepted : List Sent → ℕ
  | [] => 0
  | .sent n :: rest => n + accepted rest
  | .again :: _ => 0
  | .error :: _ => 0

theorem sendLoop_eq {size : ℕ} : ∀ {sends : List Sent} {sent : ℕ}, Sent.error ∉ sends → sent ≤ size →
    sendLoop size sends sent = some (min size (sent + accepted sends))
  | [], sent, _, hsent => by
    rw [sendLoop, accepted, Nat.add_zero, min_eq_right hsent]
  | s :: rest, sent, hok, hsent => by
    have hrest : Sent.error ∉ rest := fun hmem => hok (List.mem_cons_of_mem _ hmem)
    unfold sendLoop
    split_ifs with hmore
    · cases s with
      | sent n =>
        dsimp only
        rw [sendLoop_eq hrest (by omega), accepted]
        congr 1
        omega
      | again => rw [accepted, Nat.add_zero, min_eq_right hsent]
      | error => exact absurd (List.mem_cons_self ..) hok
    · congr 1
      omega

theorem flush_keeps {io : Io} (hio : Sent.error ∉ io.sends) (l : TcpListener) (c : Connection) :
    ∃ timers nextTimer idleTimer, l.flush io c = ({ l with timers, nextTimer },
      { c with out := c.out.drop (accepted io.sends), idleTimer }) := by
  have hdrop : c.out.drop (min c.out.length (accepted io.sends)) = c.out.drop (accepted io.sends) := by
    rcases le_total c.out.length (accepted io.sends) with hle | hle
    · rw [min_eq_left hle, List.drop_length, List.drop_of_length_le hle]
    · rw [min_eq_right hle]
  unfold flush
  rw [sendLoop_eq hio (Nat.zero_le _), Nat.zero_add]
  dsimp only
  rw [hdrop]
  split_ifs with hsome
  · exact ⟨_, _, _, rfl⟩
  · have hsame : c.out.drop (accepted io.sends) = c.out := by
      rcases Nat.eq_zero_or_pos c.out.length with hnil | hpos
      · rw [List.eq_nil_of_length_eq_zero hnil, List.drop_nil]
      · rw [show accepted io.sends = 0 by omega, List.drop_zero]
    refine ⟨l.timers, l.nextTimer, c.idleTimer, ?_⟩
    rw [hsame]

theorem turn_upNext (c : Connection) (used : ℕ) {query : Message} (hopen : c.isOpen = true)
    (hroom : c.pending < kMaxPipelined) (h : (frame (c.input.drop used)).bind asQuery = some query) :
    ∃ used', turn c used = .query query used' := by
  obtain ⟨body, hbody, hquery⟩ := Option.bind_eq_some_iff.1 h
  have hgo : (c.isOpen && decide (c.pending < kMaxPipelined)) = true := by
    rw [hopen, Bool.true_and, decide_eq_true_eq]
    exact hroom
  unfold turn
  rw [if_pos hgo, hbody]
  dsimp only
  unfold asQuery at hquery
  cases hparse : parse body with
  | error e =>
    rw [hparse] at hquery
    exact absurd hquery (by simp)
  | ok q =>
    rw [hparse] at hquery
    dsimp only at hquery ⊢
    split_ifs at hquery with hqr
    obtain rfl := Option.some.inj hquery
    rw [if_neg hqr]
    exact ⟨_, rfl⟩

/-- The query has been handed over, or `process_messages` is on its way to it. -/
def TakenUp (l l' : TcpListener) (id : ℕ) (query : Message) : Prop :=
  ∃ c', l'.objects id = some c' ∧ c'.isOpen = true ∧
    (handed l' id = handed l id ++ [query] ∨ id ∈ busy l')

theorem respond_flushed (l : TcpListener) (response : Message) {io : Io}
    (hio : Sent.error ∉ io.sends) (hopen : c.isOpen = true) : ∃ timers nextTimer idleTimer,
    l.respond io c response = processMessages io { l with timers, nextTimer }
      { c with
        pending := c.pending - 1
        out := (c.out ++ buildTcp response).drop (accepted io.sends)
        idleTimer } .respond := by
  obtain ⟨timers, nextTimer, idleTimer, hflush⟩ := flush_keeps hio l
    { c with pending := c.pending - 1, out := c.out ++ buildTcp response }
  refine ⟨timers, nextTimer, idleTimer, ?_⟩
  unfold respond
  rw [if_neg (by simp [hopen])]
  dsimp only
  rw [hflush]
  dsimp only
  rw [if_neg (by simp [hopen])]

/-- An answer from outside `process_messages`. -/
theorem respond_idle (l : TcpListener) (response : Message) {query : Message} {io : Io}
    (hio : Sent.error ∉ io.sends)
    (hopen : c.isOpen = true) (hidle : c.processing = false) (hroom : c.pending - 1 < kMaxPipelined)
    (h : (frame c.input).bind asQuery = some query) :
    (l.respond io c response).2.isOpen = true ∧ (l.respond io c response).2.id = c.id ∧
      handed (l.respond io c response).1 c.id = handed l c.id ++ [query] := by
  obtain ⟨timers, nextTimer, idleTimer, hrespond⟩ := respond_flushed l response hio hopen
  rw [hrespond]
  unfold processMessages
  rw [if_neg (by simp [hidle])]
  unfold loop
  obtain ⟨used', hturn⟩ := turn_upNext { c with
    pending := c.pending - 1
    out := (c.out ++ buildTcp response).drop (accepted io.sends)
    idleTimer
    processing := true } 0 hopen hroom h
  rw [hturn]
  dsimp only
  rw [handed_hand, if_pos rfl]
  exact ⟨hopen, rfl, rfl⟩

/-- An answer from inside `process_messages`, to a client that has not stopped sending. -/
theorem respond_busy (l : TcpListener) (response : Message) {io : Io} (hio : Sent.error ∉ io.sends)
    (hopen : c.isOpen = true) (hbusy : c.processing = true) (hpeer : c.peerDone = false) :
    (l.respond io c response).2.isOpen = true ∧ (l.respond io c response).2.id = c.id ∧
      busy (l.respond io c response).1 = busy l := by
  obtain ⟨timers, nextTimer, idleTimer, hrespond⟩ := respond_flushed l response hio hopen
  rw [hrespond]
  unfold processMessages
  rw [if_pos hbusy]
  unfold afterwards TcpListener.update
  dsimp only
  rw [if_pos hopen, if_neg (by simp [hpeer])]
  split_ifs <;> exact ⟨hopen, rfl, rfl⟩

theorem pending_pos {r : ℕ} (hsound : Sound l) (hr : (r, id) ∈ l.responders)
    (hc : l.objects id = some c) (hopen : c.isOpen = true) : 0 < c.pending := by
  have hcount := hsound.counted.entries id c hc hopen
  have hpos : 0 < outstanding l id := List.countP_pos_iff.2 ⟨(r, id), hr, beq_self_eq_true _⟩
  omega

/-- The next query is taken up with an answer. -/
theorem takenUp_respond {r : ℕ} {response query : Message} {io : Io} (hsound : Sound l)
    (hframed : Framed l) (hc : l.objects c.id = some c) (hopen : c.isOpen = true)
    (hrefused : c.refused = false) (hr : l.connectionOf r = some c.id) (hquery : upNext l c = some query)
    (hio : Sent.error ∉ io.sends) (hstep : Step l (.respond r response io) l') :
    TakenUp l l' c.id query := by
  have hpending := pending_pos hsound (mem_of_connectionOf hr) hc hopen
  have hroom := hframed.room c.id c hc
  have hnested := hsound.nested.entries c.id c hc
  unfold Step at hstep
  simp only [apply] at hstep
  rw [hr] at hstep
  obtain ⟨d, hd, rfl⟩ := on_eq_some hstep
  obtain rfl : c = d := Option.some.inj (hc.symm.trans hd)
  set l₁ := l.spend r (.responded r c.id) with hl₁
  have hput : ∀ s : TcpListener × Connection, s.2.id = c.id →
      (s.1.put s.2).objects c.id = some s.2 := by
    intro s hs
    show Function.update s.1.objects s.2.id (some s.2) c.id = some s.2
    rw [hs, Function.update_self]
  cases hbusy : c.processing with
  | false =>
    have habsent : c.id ∉ busy l := fun hmem => by
      rw [hnested.2 hmem] at hbusy
      cases hbusy
    unfold upNext at hquery
    rw [offset_idle habsent, List.drop_zero] at hquery
    obtain ⟨hstays, hid, hhanded⟩ := respond_idle l₁ response hio hopen hbusy (by omega) hquery
    exact ⟨_, hput _ hid, hstays, .inl hhanded⟩
  | true =>
    -- a client that has stopped sending has nothing waiting
    have hpeer : c.peerDone = false := by
      refine Bool.not_eq_true _ ▸ fun hdone => ?_
      have hidle := (((hsound.settled c.id c hc hopen).quiet hrefused).1 (.inl hdone)).1
      exact absurd (hidle.symm.trans hbusy) Bool.false_ne_true
    obtain ⟨hstays, hid, hstack⟩ := respond_busy l₁ response hio hopen hbusy hpeer
    refine ⟨_, hput _ hid, hstays, .inr ?_⟩
    show c.id ∈ busy (l₁.respond io c response).1
    rw [hstack]
    exact hnested.1 hbusy

/-- The handler returns, and `process_messages` goes on. -/
theorem handled_takes {f : Frame} {rest : List Frame} {query : Message} {io : Io}
    (hstack : l.stack = f :: rest) (hf : f.connection = c.id) (hc : l.objects c.id = some c)
    (hopen : c.isOpen = true) (hroom : c.pending < kMaxPipelined) (hquery : upNext l c = some query)
    (hstep : Step l (.handled io) l') : handed l' c.id = handed l c.id ++ [query] := by
  unfold Step at hstep
  simp only [apply] at hstep
  rw [hstack] at hstep
  dsimp only at hstep
  rw [hf] at hstep
  obtain ⟨d, hd, rfl⟩ := on_eq_some hstep
  obtain rfl : c = d := Option.some.inj (hc.symm.trans hd)
  unfold upNext at hquery
  rw [offset_top hstack hf] at hquery
  obtain ⟨used', hturn⟩ := turn_upNext c f.used hopen hroom hquery
  unfold loop
  rw [hturn]
  have hhand := handed_hand { l with stack := rest } c query used' f.after c.id
  rw [if_pos rfl] at hhand
  exact hhand

/-- **What a client sends is handed over in order, and no query is lost.** A whole query waits only behind
the limit, and it is taken up when an answer is sent, as long as the kernel has granted what the connection is
to be watched for. -/
theorem framing {es : List Event} (h : Run Step { config } es l) :
    (∀ id, (handed l id).map some <+: (frames.items (received l id)).map asQuery) ∧
    (∀ id c, l.objects id = some c → c.isOpen = true → id ∉ busy l →
      (frame c.input).isSome = true → kMaxPipelined ≤ c.pending) ∧
    (∀ f rest c query io l', l.stack = f :: rest → f.connection = c.id → l.objects c.id = some c →
      c.isOpen = true → c.pending < kMaxPipelined → upNext l c = some query →
      Step l (.handled io) l' → handed l' c.id = handed l c.id ++ [query]) ∧
    ∀ r response io l' c query, l.connectionOf r = some c.id → l.objects c.id = some c →
      c.isOpen = true → c.refused = false → upNext l c = some query → Sent.error ∉ io.sends →
      Step l (.respond r response io) l' → TakenUp l l' c.id query := by
  obtain ⟨hsound, hframed⟩ := framed_run h
  refine ⟨hframed.initial, fun id c hc hopen habsent hwhole => ?_, ?_, ?_⟩
  · refine (hsound.settled id c hc hopen).waits ?_ hwhole
    cases hbusy : c.processing with
    | true => exact absurd ((hsound.nested.entries id c hc).1 hbusy) habsent
    | false => rfl
  · intro f rest c query io l' hstack hf hc hopen hroom hquery hstep
    exact handled_takes hstack hf hc hopen hroom hquery hstep
  · intro r response io l' c query hr hc hopen hrefused hquery hio hstep
    exact takenUp_respond hsound hframed hc hopen hrefused hr hquery hio hstep

/-! ### More queries than are handed over at once -/

/-- A query without a question, in its frame. -/
def bareQuery : List UInt8 := 0 :: 12 :: List.replicate 12 0

/-- A chunk is read from the first connection. -/
def reads (bytes : List UInt8) : List Event := [.poll, .ready 1 false (some (.data bytes)) false {}]

/-- A client sends 34 queries in two pieces, the first of which ends inside a length. The handler keeps the
first 32. -/
def keptQueries : List Event :=
  [.acceptable [.connection .other true]] ++ reads [0] ++
    reads ((List.replicate 34 bareQuery).flatten.drop 1) ++ List.replicate 32 (.handled {})

/-- A responder is called, and the kernel takes the answer. -/
def answered (r : ℕ) : Event := .respond r { header := { qr := true } } { sends := [.sent 14] }

/-- An answer lets the next query in, and the loop goes on to the last one after an answer from inside. -/
theorem framing_keptQueries :
    (∃ l l' c query, Run Step {} keptQueries l ∧ l.objects 1 = some c ∧ upNext l c = some query ∧
      kMaxPipelined ≤ c.pending ∧ Step l (answered 0) l' ∧ TakenUp l l' 1 query) ∧
    ∃ l l' query, Run Step {} (keptQueries ++ [answered 0, answered 1]) l ∧ Step l (.handled {}) l' ∧
      (handed l 1).length = 33 ∧ (handed l 1).map some <+: (frames.items (received l 1)).map asQuery ∧
      handed l' 1 = handed l 1 ++ [query] := by
  constructor
  · have hcomputed : (Run.applyAll apply {} keptQueries).any (fun l => ((l.objects 1).any fun c =>
        c.isOpen && c.id == 1 && !c.refused && (upNext l c).isSome && (frame c.input).isSome) &&
        l.connectionOf 0 == some 1 && !(busy l).contains 1 && (apply l (answered 0)).isSome) = true := by
      decide +kernel
    obtain ⟨l, hrun, hl⟩ := Run.exists_of_applyAll (fun _ _ _ h => (h : Step _ _ _)) hcomputed
    simp only [Bool.and_eq_true, beq_iff_eq, Bool.not_eq_true', Option.any_eq_true] at hl
    obtain ⟨⟨⟨⟨c, hc, ⟨⟨⟨hopen, hid⟩, hrefused⟩, hnext⟩, hwhole⟩, hr⟩, hidle⟩, hstep⟩ := hl
    obtain ⟨query, hquery⟩ := Option.isSome_iff_exists.1 hnext
    obtain ⟨l', hstep⟩ := Option.isSome_iff_exists.1 hstep
    obtain ⟨-, hwaits, -, htaken⟩ := framing hrun
    have htaken := htaken 0 _ _ l' c query (hid ▸ hr) (hid ▸ hc) hopen hrefused hquery (by simp) hstep
    rw [hid] at htaken
    refine ⟨l, l', c, query, hrun, hc, hquery, hwaits 1 c hc hopen (fun hmem => ?_) hwhole, hstep, htaken⟩
    rw [List.contains_iff_mem.2 hmem] at hidle
    cases hidle
  · have hcomputed : (Run.applyAll apply {} (keptQueries ++ [answered 0, answered 1])).any (fun l =>
        ((l.objects 1).any fun c => c.isOpen && c.id == 1 && (upNext l c).isSome &&
          decide (c.pending < kMaxPipelined)) && (l.stack.head?.any fun f => f.connection == 1) &&
        (handed l 1).length == 33 && (apply l (.handled {})).isSome) = true := by
      decide +kernel
    obtain ⟨l, hrun, hl⟩ := Run.exists_of_applyAll (fun _ _ _ h => (h : Step _ _ _)) hcomputed
    simp only [Bool.and_eq_true, beq_iff_eq, decide_eq_true_eq, Option.any_eq_true] at hl
    obtain ⟨⟨⟨⟨c, hc, ⟨⟨hopen, hid⟩, hnext⟩, hroom⟩, f, hf, hfid⟩, hcount⟩, hstep⟩ := hl
    obtain ⟨query, hquery⟩ := Option.isSome_iff_exists.1 hnext
    obtain ⟨l', hstep⟩ := Option.isSome_iff_exists.1 hstep
    obtain ⟨rest, hstack⟩ := List.head?_eq_some_iff.1 hf
    obtain ⟨hinitial, -, hhandled, -⟩ := framing hrun
    have hnew := hhandled f rest c query _ l' hstack (hfid.trans hid.symm) (hid ▸ hc) hopen hroom
      hquery hstep
    rw [hid] at hnew
    exact ⟨l, l', query, hrun, hstep, hcount, hinitial 1, hnew⟩

end DNSentinel.Net.Framing
