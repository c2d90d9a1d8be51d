import DNSentinel.Net.Tcp

/-! # What happens to a connection

Every event changes at most one connection at a time, by a sequence of `Move`s, or takes a connection
on, or spends a responder (`Effect`). From this follow the bookkeeping of the listener (`Registered`,
`Timed`, `Nested`), what `pending` counts (`Counted`) and how connections are left (`Settled`). -/

namespace DNSentinel.Net.Connections

open DNSentinel.Types Lib.Runs Lib.Pairs Policy.Addresses Wire.Builder Tcp Tcp.TcpListener

variable {l l' : TcpListener} {c c' : Connection} {io : Io} {id r tid used : ℕ} {query : Message}
  {after : After}

/-! ### Moves -/

/-- A step of the listener that concerns one connection. -/
inductive Move : TcpListener × Connection → TcpListener × Connection → Prop
  | arm (l : TcpListener) (c : Connection) (h : c.isOpen = true) : Move (l, c) (l.armIdleTimer c)
  | close (l : TcpListener) (c : Connection) (h : c.isOpen = true) : Move (l, c) (l.close c)
  | note (l : TcpListener) (c : Connection) (out : List UInt8) (peerDone : Bool)
      (interest : Interest) (refused : Bool) :
      Move (l, c) (l, { c with out, peerDone, interest, refused })
  | receive (l : TcpListener) (c : Connection) (bytes : List UInt8) (h : c.isOpen = true) :
      Move (l, c)
        ({ l with log := .received c.id bytes :: l.log }, { c with input := c.input ++ bytes })
  /-- a responder is called -/
  | reply (l : TcpListener) (c : Connection) (r : ℕ) (response : Message) (h : c.isOpen = true)
      (hr : (r, c.id) ∈ l.responders) :
      Move (l, c) (l.spend r (.responded r c.id),
        { c with pending := c.pending - 1, out := c.out ++ buildTcp response })
  /-- `process_messages` calls the handler -/
  | first (l : TcpListener) (c : Connection) (query : Message) (used : ℕ) (after : After)
      (h : c.isOpen = true) (hidle : c.processing = false) (hturn : turn c 0 = .query query used) :
      Move (l, c) (l.hand { c with processing := true } query used after)
  /-- the handler returns, and is called again -/
  | next (l : TcpListener) (c : Connection) (f : Frame) (rest : List Frame) (query : Message)
      (used : ℕ) (h : c.isOpen = true) (hstack : l.stack = f :: rest) (hf : f.connection = c.id)
      (hturn : turn c f.used = .query query used) :
      Move (l, c) ({ l with stack := rest }.hand c query used f.after)
  /-- the handler returns, and `process_messages` does too -/
  | leave (l : TcpListener) (c : Connection) (f : Frame) (rest : List Frame)
      (hstack : l.stack = f :: rest) (hf : f.connection = c.id) :
      Move (l, c) ({ l with stack := rest },
        { c with
          input := if c.isOpen then c.input.drop f.used else c.input
          processing := false })

abbrev Moves : TcpListener × Connection → TcpListener × Connection → Prop :=
  Relation.ReflTransGen Move

theorem moves_keep {P : TcpListener × Connection → Prop} (hstep : ∀ a b, Move a b → P a → P b)
    {a b : TcpListener × Connection} (h : Moves a b) (ha : P a) : P b := by
  induction h with
  | refl => exact ha
  | tail _ hmove ih => exact hstep _ _ hmove ih

theorem moves_frame {a b : TcpListener × Connection} (h : Moves a b) :
    b.1.objects = a.1.objects ∧ b.2.id = a.2.id := by
  refine moves_keep (P := fun s => s.1.objects = a.1.objects ∧ s.2.id = a.2.id)
    (fun s s' hmove hs => ?_) h ⟨rfl, rfl⟩
  cases hmove <;> exact hs

theorem move_open {a b : TcpListener × Connection} (hab : Move a b) (hopen : b.2.isOpen = true) :
    a.2.isOpen = true := by
  cases hab with
  | close l c h => exact h
  | _ => exact hopen

theorem moves_open {a b : TcpListener × Connection} (h : Moves a b) (hopen : b.2.isOpen = true) :
    a.2.isOpen = true := by
  induction h with
  | refl => exact hopen
  | tail _ hmove ih => exact ih (move_open hmove hopen)

theorem moves_reported {a b : TcpListener × Connection} (h : Moves a b) :
    b.1.reported = a.1.reported :=
  moves_keep (P := fun s => s.1.reported = a.1.reported)
    (fun _ _ hmove hs => by cases hmove <;> exact hs) h rfl

/-! ### Every function is a sequence of moves -/

theorem moves_flush (h : c.isOpen = true) : Moves (l, c) (l.flush io c) := by
  unfold flush
  split
  · exact .single (.close l c h)
  · next sent _ =>
    split_ifs
    · exact .head (.note l c (c.out.drop sent) c.peerDone c.interest c.refused) (.single (.arm _ _ h))
    · exact .refl

theorem moves_update (h : c.isOpen = true) : Moves (l, c) (l.update io c) := by
  unfold TcpListener.update
  dsimp only
  split_ifs
  · exact .single (.close l c h)
  · exact .refl
  · exact .single (.note l c c.out c.peerDone _ c.refused)
  · exact .single (.note l c c.out c.peerDone c.interest true)

theorem moves_afterwards (after : After) : Moves (l, c) (afterwards io after l c) := by
  have hupdate : ∀ {l : TcpListener} {c : Connection},
      Moves (l, c) (if c.isOpen then l.update io c else (l, c)) := by
    intro l c
    split_ifs with h
    · exact moves_update h
    · exact .refl
  cases after with
  | respond => exact hupdate
  | onEvent writable =>
    unfold afterwards
    dsimp only
    refine .trans ?_ hupdate
    split_ifs with h
    · rw [Bool.and_eq_true] at h
      exact moves_flush h.1
    · exact .refl

theorem afterwards_closed (after : After) (h : c.isOpen = false) :
    afterwards io after l c = (l, c) := by
  cases after <;> simp [afterwards, h]

theorem turn_open (c : Connection) (used : ℕ) (h : turn c used ≠ .stop) : c.isOpen = true := by
  unfold turn at h
  split_ifs at h with hopen
  · rw [Bool.and_eq_true] at hopen
    exact hopen.1
  · exact absurd rfl h

/-- `process_messages`, called while it is not on the stack. -/
theorem moves_processMessages (after : After) : Moves (l, c) (l.processMessages io c after) := by
  unfold processMessages
  split_ifs with hbusy
  · exact moves_afterwards after
  · rw [Bool.not_eq_true] at hbusy
    have hturn : turn { c with processing := true } 0 = turn c 0 := rfl
    unfold loop
    rw [hturn]
    split
    · have hsame : l.leave io { c with processing := true } 0 after = afterwards io after l c := by
        unfold leave
        cases c
        obtain rfl : _ = false := hbusy
        dsimp only
        split_ifs <;> rfl
      rw [hsame]
      exact moves_afterwards after
    · next hbroken =>
      have hopen := turn_open c 0 (by rw [hbroken]; simp)
      have hclosed : (l.close { c with processing := true }).1.leave io
          (l.close { c with processing := true }).2 0 after = l.close c := by
        unfold leave close
        dsimp only
        rw [if_neg Bool.false_ne_true, afterwards_closed after rfl, hbusy]
      dsimp only
      rw [hclosed]
      exact .single (.close l c hopen)
    · next query used hquery =>
      have hopen := turn_open c 0 (by rw [hquery]; simp)
      exact .single (.first l c query used after hopen hbusy hquery)

/-- `process_messages`, once the handler returns. -/
theorem moves_loop {f : Frame} {rest : List Frame} (hstack : l.stack = f :: rest)
    (hf : f.connection = c.id) : Moves (l, c) ({ l with stack := rest }.loop io c f.used f.after) := by
  unfold loop
  split
  · have hleave := Move.leave l c f rest hstack hf
    refine .head hleave ?_
    unfold leave
    dsimp only
    split_ifs <;> exact moves_afterwards f.after
  · next hbroken =>
    have hopen := turn_open c f.used (by rw [hbroken]; simp)
    have hclosed : ({ l with stack := rest }.close c).1.leave io
        ({ l with stack := rest }.close c).2 f.used f.after =
        ({ (l.close c).1 with stack := rest }, { (l.close c).2 with processing := false }) := by
      unfold leave close
      dsimp only
      rw [if_neg Bool.false_ne_true, afterwards_closed f.after rfl]
    dsimp only
    rw [hclosed]
    exact .head (.close l c hopen) (.single (.leave (l.close c).1 (l.close c).2 f rest hstack hf))
  · next query used hquery =>
    have hopen := turn_open c f.used (by rw [hquery]; simp)
    exact .single (.next l c f rest query used hopen hstack hf hquery)

theorem moves_respond (response : Message) (h : c.isOpen = true) (hr : (r, c.id) ∈ l.responders) :
    Moves (l, c) ((l.spend r (.responded r c.id)).respond io c response) := by
  refine .head (.reply l c r response h hr) ?_
  unfold respond
  rw [if_neg (by simp [h] : ¬ (!c.isOpen) = true)]
  dsimp only
  have hflush : Moves (l.spend r (.responded r c.id), _)
      ((l.spend r (.responded r c.id)).flush io
        { c with pending := c.pending - 1, out := c.out ++ buildTcp response }) := moves_flush h
  split_ifs
  · exact hflush
  · exact hflush.trans (moves_processMessages .respond)

theorem moves_readFrom (after : After) (recv : Recv) (h : c.isOpen = true) :
    Moves (l, c) (l.readFrom io c after recv) := by
  cases recv with
  | error => exact .head (.close l c h) (moves_afterwards after)
  | again => exact moves_afterwards after
  | eof => exact .head (.note l c c.out true c.interest c.refused) (moves_afterwards after)
  | data bytes => exact .head (.receive l c bytes h) (moves_processMessages after)

theorem moves_onEvent (hangup : Bool) (readable : Option Recv) (writable : Bool)
    (h : c.isOpen = true) : Moves (l, c) (l.onEvent io c hangup readable writable) := by
  unfold onEvent
  split_ifs
  · exact .single (.close l c h)
  · cases readable with
    | none => exact moves_afterwards _
    | some recv => exact moves_readFrom _ recv h

/-! ### The register -/

theorem put_self (h : l.objects c.id = some c) : l.put c = l := by
  unfold put
  rw [← h, Function.update_eq_self]

/-- What holds of every connection holds of the one in hand and of the others. -/
theorem forall_put {Q : ℕ → Connection → Prop} :
    (∀ id x, (l.put c).objects id = some x → Q id x) ↔
      Q c.id c ∧ ∀ id x, id ≠ c.id → l.objects id = some x → Q id x := by
  constructor
  · intro h
    refine ⟨h c.id c (Function.update_self ..), fun id x hid hx => h id x ?_⟩
    exact (Function.update_of_ne hid ..).trans hx
  · rintro ⟨hc, hothers⟩ id x hx
    rcases update_some hx with ⟨rfl, rfl⟩ | ⟨hid, hx⟩
    · exact hc
    · exact hothers id x hid hx

/-- `connections_` has the open connections. -/
structure Registered (l : TcpListener) : Prop where
  entries : ∀ id c, l.objects id = some c →
    c.id = id ∧ id < l.nextId ∧ (c.isOpen = true ↔ id ∈ l.connections)
  below : ∀ id ∈ l.connections, id < l.nextId
  nodup : l.connections.Nodup

theorem registered_move {a b : TcpListener × Connection} (hab : Move a b)
    (h : Registered (a.1.put a.2)) : Registered (b.1.put b.2) := by
  obtain ⟨hentries, hbelow, hnodup⟩ := h
  cases hab with
  | close l c hopen =>
    obtain ⟨⟨hid, hold, -⟩, hothers⟩ := forall_put.1 hentries
    refine ⟨forall_put.2 ⟨⟨hid, hold, ?_⟩, fun id x hne hx => ?_⟩, fun id hmem => ?_, ?_⟩
    · exact iff_of_false Bool.false_ne_true (hnodup.not_mem_erase)
    · obtain ⟨hxid, hxold, hlisted⟩ := hothers id x hne hx
      exact ⟨hxid, hxold, hlisted.trans (List.mem_erase_of_ne hne).symm⟩
    · exact hbelow id (List.mem_of_mem_erase hmem)
    · exact hnodup.erase c.id
  | _ => exact ⟨forall_put.2 (forall_put.1 hentries), hbelow, hnodup⟩

/-- The idle timer is armed while the connection is open. -/
structure Timed (l : TcpListener) : Prop where
  entries : ∀ id c, l.objects id = some c →
    (c.isOpen = true ↔ c.idleTimer.isSome = true) ∧
      ∀ tid, c.idleTimer = some tid ↔ l.timers tid = some (.idle id)
  fresh : ∀ tid, l.nextTimer ≤ tid → l.timers tid = none
  below : ∀ tid id, l.timers tid = some (.idle id) → id < l.nextId

/-- Cancelling a connection's timer cancels no other's. -/
theorem timers_without (h : ∀ tid, c.idleTimer = some tid ↔ l.timers tid = some (.idle c.id)) :
    without l.timers c.idleTimer tid = some (.idle id) ↔
      l.timers tid = some (.idle id) ∧ id ≠ c.id := by
  constructor
  · intro hsome
    refine ⟨without_some hsome, ?_⟩
    rintro rfl
    have htimer := (h tid).2 (without_some hsome)
    rw [htimer] at hsome
    exact absurd hsome (by simp [without])
  · rintro ⟨hsome, hne⟩
    rw [without_apply, hsome]
    intro hc
    have hown := (h tid).1 hc
    rw [hsome] at hown
    exact hne (Timer.idle.inj (Option.some.inj hown))

theorem timers_arm (h : ∀ tid, c.idleTimer = some tid ↔ l.timers tid = some (.idle c.id))
    (hfresh : l.timers l.nextTimer = none) :
    (l.armIdleTimer c).1.timers tid = some (.idle id) ↔
      tid = l.nextTimer ∧ id = c.id ∨ l.timers tid = some (.idle id) ∧ id ≠ c.id := by
  unfold armIdleTimer
  dsimp only
  by_cases htid : tid = l.nextTimer
  · rw [htid, Function.update_self, hfresh]
    simp [eq_comm]
  · rw [Function.update_of_ne htid, timers_without h]
    simp [htid]

theorem timed_arm (hold : c.id < l.nextId) (hopen : c.isOpen = true)
    (htimer : ∀ tid, c.idleTimer = some tid ↔ l.timers tid = some (.idle c.id))
    (hothers : ∀ id x, id ≠ c.id → l.objects id = some x →
      (x.isOpen = true ↔ x.idleTimer.isSome = true) ∧
        ∀ tid, x.idleTimer = some tid ↔ l.timers tid = some (.idle id))
    (hfresh : ∀ tid, l.nextTimer ≤ tid → l.timers tid = none)
    (hbelow : ∀ tid id, l.timers tid = some (.idle id) → id < l.nextId) :
    Timed ((l.armIdleTimer c).1.put (l.armIdleTimer c).2) := by
  have harm : ∀ tid id, (l.armIdleTimer c).1.timers tid = some (.idle id) ↔
      tid = l.nextTimer ∧ id = c.id ∨ l.timers tid = some (.idle id) ∧ id ≠ c.id :=
    fun _ _ => timers_arm htimer (hfresh _ le_rfl)
  refine ⟨forall_put.2 ⟨⟨iff_of_true hopen rfl, fun tid => ?_⟩, fun id x hne hx => ?_⟩,
    fun tid htid => ?_, fun tid id htid => ?_⟩
  · refine Iff.trans ?_ (harm tid c.id).symm
    simp [armIdleTimer, eq_comm]
  · obtain ⟨harmed, hown⟩ := hothers id x hne hx
    refine ⟨harmed, fun tid => (hown tid).trans ?_⟩
    have hother := harm tid id
    rw [or_iff_right fun heq => hne heq.2, and_iff_left (show id ≠ c.id from hne)] at hother
    exact hother.symm
  · have hlt : l.nextTimer < tid := htid
    show Function.update (without l.timers c.idleTimer) l.nextTimer _ tid = none
    rw [Function.update_of_ne hlt.ne', Option.eq_none_iff_forall_ne_some]
    intro t ht
    exact absurd ((hfresh tid hlt.le).symm.trans (without_some ht)) (by simp)
  · rcases (harm tid id).1 htid with ⟨-, rfl⟩ | ⟨htid, -⟩
    · exact hold
    · exact hbelow tid id htid

theorem timed_move {a b : TcpListener × Connection} (hab : Move a b)
    (hregistered : Registered (a.1.put a.2)) (h : Timed (a.1.put a.2)) : Timed (b.1.put b.2) := by
  obtain ⟨⟨-, hold, -⟩, -⟩ := forall_put.1 hregistered.entries
  obtain ⟨⟨-, htimer⟩, hothers⟩ := forall_put.1 h.entries
  obtain ⟨hentries, hfresh, hbelow⟩ := h
  cases hab with
  | arm l c hopen => exact timed_arm hold hopen htimer hothers hfresh hbelow
  | close l c hopen =>
    refine ⟨forall_put.2 ⟨⟨iff_of_false Bool.false_ne_true (by simp [close]), fun tid => ?_⟩,
      fun id x hne hx => ?_⟩, fun tid htid => ?_, fun tid id htid => ?_⟩
    · exact iff_of_false (by simp [close]) fun hsome => ((timers_without htimer).1 hsome).2 rfl
    · obtain ⟨harmed, hown⟩ := hothers id x hne hx
      exact ⟨harmed, fun tid => (hown tid).trans
        (((timers_without htimer).trans (and_iff_left hne)).symm)⟩
    · rw [Option.eq_none_iff_forall_ne_some]
      intro t ht
      exact absurd ((hfresh tid htid).symm.trans (without_some ht)) (by simp)
    · exact hbelow tid id (without_some htid)
  | first l c query used after hopen hidle hturn =>
    have harm := timed_arm (l := l) (c := { c with processing := true, pending := c.pending + 1 })
      hold hopen htimer hothers hfresh hbelow
    exact ⟨harm.entries, harm.fresh, harm.below⟩
  | next l c f rest query used hopen hstack hf hturn =>
    have harm := timed_arm (l := l) (c := { c with pending := c.pending + 1 })
      hold hopen htimer hothers hfresh hbelow
    exact ⟨harm.entries, harm.fresh, harm.below⟩
  | _ => exact ⟨forall_put.2 (forall_put.1 hentries), hfresh, hbelow⟩

/-! ### The stack -/

/-- The connections for which `process_messages` is on the stack. -/
def busy (l : TcpListener) : List ℕ := l.stack.map Frame.connection

theorem busy_top {f : Frame} {rest : List Frame} (hstack : l.stack = f :: rest)
    (hf : f.connection = c.id) : busy l = c.id :: rest.map Frame.connection := by
  unfold busy
  rw [hstack, List.map_cons, hf]

/-- `process_messages` is on the stack at most once for each connection, which says so. -/
structure Nested (l : TcpListener) : Prop where
  entries : ∀ id c, l.objects id = some c → (c.processing = true ↔ id ∈ busy l)
  nodup : (busy l).Nodup
  below : ∀ id ∈ busy l, id < l.nextId

theorem nested_move {a b : TcpListener × Connection} (hab : Move a b)
    (hregistered : Registered (a.1.put a.2)) (h : Nested (a.1.put a.2)) : Nested (b.1.put b.2) := by
  obtain ⟨⟨-, hold, -⟩, -⟩ := forall_put.1 hregistered.entries
  obtain ⟨hc, hothers⟩ := forall_put.1 h.entries
  obtain ⟨hentries, hnodup, hbelow⟩ := h
  cases hab with
  | first l c query used after hopen hidle hturn =>
    have habsent : c.id ∉ busy l := fun hmem =>
      absurd (hidle.symm.trans (hc.2 hmem)) Bool.false_ne_true
    refine ⟨forall_put.2 ⟨iff_of_true rfl (List.mem_cons_self ..), fun id x hne hx => ?_⟩, ?_, ?_⟩
    · exact (hothers id x hne hx).trans (List.mem_cons.trans (or_iff_right hne)).symm
    · exact List.nodup_cons.2 ⟨habsent, hnodup⟩
    · exact List.forall_mem_cons.2 ⟨hold, hbelow⟩
  | next l c f rest query used hopen hstack hf hturn =>
    have hbusy := busy_top hstack hf
    have hmem : ∀ id, id ∈ busy l ↔ id ∈ c.id :: rest.map Frame.connection := fun id => by rw [hbusy]
    refine ⟨forall_put.2 ⟨hc.trans (hmem c.id), fun id x hne hx => ?_⟩, ?_, fun id hid => ?_⟩
    · exact (hothers id x hne hx).trans (hmem id)
    · exact (hbusy ▸ (hnodup : (busy l).Nodup) : (c.id :: rest.map Frame.connection).Nodup)
    · exact hbelow id ((hmem id).2 hid)
  | leave l c f rest hstack hf =>
    have hbusy := busy_top hstack hf
    have hmem : ∀ id, id ∈ busy l ↔ id = c.id ∨ id ∈ rest.map Frame.connection := fun id => by
      rw [hbusy, List.mem_cons]
    obtain ⟨hgone, hrest⟩ := List.nodup_cons.1 (hbusy ▸ (hnodup : (busy l).Nodup))
    refine ⟨forall_put.2 ⟨iff_of_false Bool.false_ne_true hgone, fun id x hne hx => ?_⟩, hrest,
      fun id hid => hbelow id ((hmem id).2 (.inr hid))⟩
    exact (hothers id x hne hx).trans ((hmem id).trans (or_iff_right hne))
  | _ => exact ⟨forall_put.2 (forall_put.1 hentries), hnodup, hbelow⟩

/-! ### What is pending -/

/-- The queries of a connection whose responder is alive and has not been called. -/
def outstanding (l : TcpListener) (id : ℕ) : ℕ := l.responders.countP fun x => x.2 == id

def isDiscard (id : ℕ) : Fact → Bool
  | .discarded _ id' => id' == id
  | _ => false

/-- The queries of a connection whose responder was destroyed without having been called. -/
def discards (l : TcpListener) (id : ℕ) : ℕ := l.log.countP (isDiscard id)

structure Counted (l : TcpListener) : Prop where
  entries : ∀ id c, l.objects id = some c → c.isOpen = true →
    c.pending = outstanding l id + discards l id
  keys : (l.responders.map Prod.fst).Nodup
  fresh : ∀ x ∈ l.responders, x.1 < l.nextResponder
  unknown : ∀ id, l.nextId ≤ id → outstanding l id = 0 ∧ discards l id = 0

/-- One entry of a table is removed. -/
theorem countP_filter_key {p : ℕ × ℕ → Bool} : ∀ {xs : List (ℕ × ℕ)}, (xs.map Prod.fst).Nodup →
    (r, id) ∈ xs →
    xs.countP p = (xs.filter fun x => x.1 != r).countP p + if p (r, id) then 1 else 0
  | x :: xs, hkeys, hmem => by
    obtain ⟨hnew, hkeys⟩ := List.nodup_cons.1 hkeys
    rcases List.mem_cons.1 hmem with rfl | hmem
    · have hkeep : xs.filter (fun x => x.1 != r) = xs := by
        refine List.filter_eq_self.2 fun x hx => bne_iff_ne.2 fun hxr => ?_
        exact hnew (List.mem_map.2 ⟨x, hx, hxr⟩)
      rw [List.filter_cons_of_neg (by simp), hkeep, List.countP_cons]
    · have hne : x.1 ≠ r := fun hxr => hnew (List.mem_map.2 ⟨(r, id), hmem, hxr.symm⟩)
      rw [List.filter_cons_of_pos (by simpa using hne), List.countP_cons, List.countP_cons,
        countP_filter_key hkeys hmem]
      omega

theorem outstanding_spend (hkeys : (l.responders.map Prod.fst).Nodup) (hr : (r, id) ∈ l.responders)
    (fact : Fact) (id' : ℕ) :
    outstanding l id' = outstanding (l.spend r fact) id' + if id = id' then 1 else 0 := by
  unfold outstanding spend
  rw [countP_filter_key hkeys hr]
  simp only [beq_iff_eq]

theorem outstanding_hand (l : TcpListener) (c : Connection) (query : Message) (used : ℕ)
    (after : After) (id : ℕ) :
    outstanding (l.hand c query used after).1 id =
      outstanding l id + if c.id = id then 1 else 0 := by
  show ((l.nextResponder, c.id) :: l.responders).countP _ = _
  rw [List.countP_cons]
  simp only [beq_iff_eq]
  rfl

theorem counted_hand (hold : c.id < l.nextId) (hcount : c.pending = outstanding l c.id + discards l c.id)
    (hothers : ∀ id x, id ≠ c.id → l.objects id = some x → x.isOpen = true →
      x.pending = outstanding l id + discards l id)
    (hkeys : (l.responders.map Prod.fst).Nodup) (hfresh : ∀ x ∈ l.responders, x.1 < l.nextResponder)
    (hunknown : ∀ id, l.nextId ≤ id → outstanding l id = 0 ∧ discards l id = 0) :
    Counted ((l.hand c query used after).1.put (l.hand c query used after).2) := by
  have hhand := outstanding_hand l c query used after
  refine ⟨forall_put.2 ⟨fun _ => ?_, fun id x hne hx hxopen => ?_⟩, ?_, ?_, fun id hid => ?_⟩
  · show c.pending + 1 = outstanding (l.hand c query used after).1 c.id + discards l c.id
    rw [hhand, if_pos rfl, hcount]
    omega
  · show x.pending = outstanding (l.hand c query used after).1 id + discards l id
    rw [hhand, if_neg (show c.id ≠ id from Ne.symm hne), Nat.add_zero]
    exact hothers id x hne hx hxopen
  · refine List.nodup_cons.2 ⟨fun hmem => ?_, hkeys⟩
    obtain ⟨x, hx, hxr⟩ := List.mem_map.1 hmem
    exact absurd (hfresh x hx) (hxr ▸ lt_irrefl _)
  · refine List.forall_mem_cons.2 ⟨Nat.lt_succ_self _, fun x hx => ?_⟩
    exact Nat.lt_succ_of_lt (hfresh x hx)
  · have hne : c.id ≠ id := by
      rintro rfl
      exact absurd hold (not_lt.2 hid)
    refine ⟨?_, (hunknown id hid).2⟩
    show outstanding (l.hand c query used after).1 id = 0
    rw [hhand, if_neg hne, (hunknown id hid).1]

theorem counted_move {a b : TcpListener × Connection} (hab : Move a b)
    (hregistered : Registered (a.1.put a.2)) (h : Counted (a.1.put a.2)) : Counted (b.1.put b.2) := by
  obtain ⟨⟨-, hold, -⟩, -⟩ := forall_put.1 hregistered.entries
  obtain ⟨hc, hothers⟩ := forall_put.1 h.entries
  obtain ⟨hentries, hkeys, hfresh, hunknown⟩ := h
  cases hab with
  | close l c hopen =>
    exact ⟨forall_put.2 ⟨fun hfalse => absurd hfalse Bool.false_ne_true, hothers⟩, hkeys, hfresh,
      hunknown⟩
  | reply l c r response hopen hr =>
    have hspend : ∀ id, outstanding l id =
        outstanding (l.spend r (.responded r c.id)) id + if c.id = id then 1 else 0 :=
      outstanding_spend hkeys hr (.responded r c.id)
    refine ⟨forall_put.2 ⟨fun _ => ?_, fun id x hne hx hxopen => ?_⟩, ?_, fun x hx => ?_,
      fun id hid => ?_⟩
    · have hcount : c.pending = outstanding l c.id + discards l c.id := hc hopen
      show c.pending - 1 = outstanding (l.spend r (.responded r c.id)) c.id + discards l c.id
      rw [hspend, if_pos rfl] at hcount
      omega
    · have hcount : x.pending = outstanding l id + discards l id := hothers id x hne hx hxopen
      rw [hspend, if_neg (show c.id ≠ id from Ne.symm hne)] at hcount
      exact hcount
    · exact hkeys.sublist (List.filter_sublist.map Prod.fst)
    · exact hfresh x (List.mem_of_mem_filter hx)
    · refine ⟨?_, (hunknown id hid).2⟩
      have hzero : outstanding l id = 0 := (hunknown id hid).1
      rw [hspend] at hzero
      exact (Nat.add_eq_zero_iff.1 hzero).1
  | first l c query used after hopen hidle hturn =>
    exact counted_hand (c := { c with processing := true }) hold (hc hopen) hothers hkeys hfresh hunknown
  | next l c f rest query used hopen hstack hf hturn =>
    exact counted_hand (l := { l with stack := rest }) hold (hc hopen) hothers hkeys hfresh hunknown
  | _ => exact ⟨forall_put.2 (forall_put.1 hentries), hkeys, hfresh, hunknown⟩

/-! ### Where a connection is left -/

/-- Outside `process_messages` a whole message waits only while too many queries are unanswered. -/
def Waits (c : Connection) : Prop :=
  c.processing = false → (frame c.input).isSome = true → kMaxPipelined ≤ c.pending

/-- Nothing whole waits once the client has stopped sending, or while a report of input is still to be
dispatched: reading is paused while something does. -/
def Quiet (report : Option Interest) (c : Connection) : Prop :=
  (c.peerDone = true ∨ report.any Interest.readable = true →
    c.processing = false ∧ frame c.input = none) ∧
  (report.any Interest.readable = true → c.peerDone = false)

/-- How an open connection is left. -/
structure Settled (report : Option Interest) (c : Connection) : Prop where
  /-- if the client is done with it, then there is something to wait for -/
  due : c.processing = true ∨ c.peerDone = false ∨ c.pending ≠ 0 ∨ c.out ≠ []
  waits : Waits c
  watched : c.refused = false → c.processing = false → c.interest.readable = true →
    c.peerDone = false ∧ c.pending < kMaxPipelined
  quiet : c.refused = false → Quiet report c

variable {report : Option Interest}

theorem waits_busy (h : c.processing = true) : Waits c := fun hidle =>
  absurd (hidle.symm.trans h) Bool.false_ne_true

theorem Settled.dispatched (h : Settled report c) : Settled none c :=
  ⟨h.due, h.waits, h.watched, fun hrefused =>
    ⟨fun hdone => (h.quiet hrefused).1 (.inl (hdone.resolve_right Bool.false_ne_true)),
      fun hnone => absurd hnone Bool.false_ne_true⟩⟩

/-- `epoll_wait` returns, while no handler is running. -/
theorem Settled.polled (h : Settled report c) (hidle : c.processing = false) :
    Settled (some c.interest) c := by
  refine ⟨h.due, h.waits, h.watched, fun hrefused => ⟨?_, fun hread => ?_⟩⟩
  · rintro (hdone | hread)
    · exact (h.quiet hrefused).1 (.inl hdone)
    · obtain ⟨-, hroom⟩ := h.watched hrefused hidle hread
      refine ⟨hidle, Option.not_isSome_iff_eq_none.1 fun hwhole => ?_⟩
      exact absurd hroom (not_lt.2 (h.waits hidle hwhole))
  · exact (h.watched hrefused hidle hread).1

theorem flush_eq (io : Io) (l : TcpListener) (c : Connection) :
    ∃ isOpen out idleTimer, (l.flush io c).2 = { c with isOpen, out, idleTimer } := by
  unfold flush
  split
  · exact ⟨_, _, _, rfl⟩
  · split_ifs
    · exact ⟨_, _, _, rfl⟩
    · exact ⟨_, _, _, rfl⟩

theorem settled_update (io : Io) (l : TcpListener) (hwaits : Waits c)
    (hquiet : c.refused = false → Quiet report c) :
    (l.update io c).2.isOpen = true → Settled report (l.update io c).2 := by
  have hwant (h : (!c.peerDone && decide (c.pending < kMaxPipelined) &&
      decide (c.out.length < kMaxUnsent)) = true) : c.peerDone = false ∧ c.pending < kMaxPipelined := by
    simpa using ((Bool.and_eq_true _ _).mp h).1
  unfold TcpListener.update
  by_cases hdone : c.peerDone = true ∧ c.pending = 0 ∧ c.out = []
  · rw [if_pos hdone]
    exact fun hopen => absurd hopen Bool.false_ne_true
  · rw [if_neg hdone]
    intro _
    rw [not_and_or, not_and_or, Bool.not_eq_true] at hdone
    dsimp only
    split_ifs with hsame
    · refine ⟨.inr hdone, hwaits, fun _ _ hread => hwant ?_, hquiet⟩
      rw [← hsame] at hread
      exact hread
    · exact ⟨.inr hdone, hwaits, fun _ _ => hwant, hquiet⟩
    · exact ⟨.inr hdone, hwaits, fun hrefused => (by cases hrefused), fun hrefused => by cases hrefused⟩

theorem settled_afterwards (io : Io) (after : After) (l : TcpListener)
    (h : c.isOpen = true → Waits c ∧ (c.refused = false → Quiet report c)) :
    (afterwards io after l c).2.isOpen = true → Settled report (afterwards io after l c).2 := by
  have hupdate (s : TcpListener × Connection)
      (hs : s.2.isOpen = true → Waits s.2 ∧ (s.2.refused = false → Quiet report s.2)) :
      (if s.2.isOpen then s.1.update io s.2 else s).2.isOpen = true →
        Settled report (if s.2.isOpen then s.1.update io s.2 else s).2 := by
    split_ifs with hopen
    · exact settled_update io s.1 (hs hopen).1 (hs hopen).2
    · exact fun hopen' => absurd hopen' hopen
  cases after with
  | respond => exact hupdate (l, c) h
  | onEvent writable =>
    refine hupdate (if c.isOpen && writable then l.flush io c else (l, c)) ?_
    split_ifs with hflush
    · obtain ⟨isOpen, out, idleTimer, heq⟩ := flush_eq io l c
      rw [heq]
      exact fun _ => h ((Bool.and_eq_true _ _).mp hflush).1
    · exact h

/-- Where the loop of `process_messages` stops. -/
theorem turn_stop (h : turn c used = .stop) (hopen : c.isOpen = true)
    (hroom : c.pending < kMaxPipelined) : frame (c.input.drop used) = none := by
  unfold turn at h
  rw [if_pos (by rw [hopen, Bool.true_and, decide_eq_true_eq]; exact hroom)] at h
  split at h
  · assumption
  · split at h
    · split_ifs at h
    · cases h

theorem turn_whole {used' : ℕ} (h : turn c used = .query query used') :
    frame (c.input.drop used) ≠ none := by
  intro hnone
  unfold turn at h
  split_ifs at h
  rw [hnone] at h
  cases h

/-- The loop stops at the limit, or where no whole message is left. -/
theorem settled_loop (io : Io) (l : TcpListener) (c : Connection) (used : ℕ) (after : After)
    (hbusy : c.processing = true)
    (hquiet : c.refused = false → (c.peerDone = true ∨ report.any Interest.readable = true →
      frame (c.input.drop used) = none) ∧ (report.any Interest.readable = true → c.peerDone = false)) :
    (l.loop io c used after).2.isOpen = true → Settled report (l.loop io c used after).2 := by
  unfold loop
  split
  · next hstop =>
    refine settled_afterwards io after l fun hopen => ?_
    by_cases hc : c.isOpen = true
    · rw [if_pos hc]
      refine ⟨fun _ hwhole => ?_, fun hrefused => ?_⟩
      · by_contra hroom
        rw [turn_stop hstop hc (not_le.1 hroom)] at hwhole
        cases hwhole
      · obtain ⟨hnone, hfresh⟩ := hquiet hrefused
        exact ⟨fun hnoted => ⟨rfl, hnone hnoted⟩, hfresh⟩
    · rw [if_neg hc] at hopen
      exact absurd hopen hc
  · exact settled_afterwards io after _ fun hopen => absurd hopen Bool.false_ne_true
  · next hquery =>
    intro _
    refine ⟨.inl hbusy, waits_busy hbusy, fun _ hidle => ?_, fun hrefused => ?_⟩
    · exact absurd (hidle.symm.trans hbusy) Bool.false_ne_true
    · obtain ⟨hnone, hfresh⟩ := hquiet hrefused
      exact ⟨fun hnoted => absurd (hnone hnoted) (turn_whole hquery), hfresh⟩

theorem settled_processMessages (io : Io) (l : TcpListener) (after : After)
    (hquiet : c.refused = false → Quiet report c) :
    (l.processMessages io c after).2.isOpen = true → Settled report (l.processMessages io c after).2 := by
  unfold processMessages
  split_ifs with hbusy
  · exact settled_afterwards io after l fun _ => ⟨waits_busy hbusy, hquiet⟩
  · refine settled_loop io l _ 0 after rfl fun hrefused => ?_
    exact ⟨fun hnoted => ((hquiet hrefused).1 hnoted).2, (hquiet hrefused).2⟩

theorem settled_respond (io : Io) (l : TcpListener) (response : Message)
    (hquiet : c.refused = false → Quiet report c) :
    (l.respond io c response).2.isOpen = true → Settled report (l.respond io c response).2 := by
  unfold respond
  dsimp only
  split_ifs with hclosed hgone
  · exact fun hopen => absurd hopen (by simpa using hclosed)
  · exact fun hopen => absurd hopen (by simpa using hgone)
  · refine settled_processMessages io _ _ ?_
    obtain ⟨isOpen, out, idleTimer, heq⟩ := flush_eq io l
      { c with pending := c.pending - 1, out := c.out ++ buildTcp response }
    rw [heq]
    exact hquiet

/-- Input is read only if it was reported. -/
theorem settled_onEvent (io : Io) (l : TcpListener) (hangup : Bool) {readable : Option Recv}
    (writable : Bool) (h : Settled report c)
    (hreported : readable.isSome = true → report.any Interest.readable = true) :
    (l.onEvent io c hangup readable writable).2.isOpen = true →
      Settled none (l.onEvent io c hangup readable writable).2 := by
  have hrest := h.dispatched
  unfold onEvent
  split_ifs
  · exact fun hopen => absurd hopen Bool.false_ne_true
  · cases readable with
    | none => exact settled_afterwards io _ l fun _ => ⟨hrest.waits, hrest.quiet⟩
    | some recv =>
      have hread := hreported rfl
      have hnone : ¬ (none : Option Interest).any Interest.readable = true := Bool.false_ne_true
      cases recv with
      | data bytes =>
        refine settled_processMessages io _ _ fun hrefused => ⟨?_, fun hnot => absurd hnot hnone⟩
        rintro (hdone | hnot)
        · exact absurd (((h.quiet hrefused).2 hread).symm.trans hdone) Bool.false_ne_true
        · exact absurd hnot hnone
      | error => exact settled_afterwards io _ _ fun hopen => absurd hopen Bool.false_ne_true
      | again => exact settled_afterwards io _ l fun _ => ⟨hrest.waits, hrest.quiet⟩
      | eof =>
        refine settled_afterwards io _ l fun _ => ⟨h.waits, fun hrefused => ?_⟩
        exact ⟨fun _ => (h.quiet hrefused).1 (.inr hread), fun hnot => absurd hnot hnone⟩

/-! ### Events -/

/-- What the event `e` does to the listener. -/
inductive Effect (e : Event) : TcpListener → TcpListener → Prop
  | focus {l l' : TcpListener} {c c' : Connection} (hc : l.objects c.id = some c)
      (h : Moves (l, c) (l', c')) (hsettled : c'.isOpen = true → Settled (l.reported c.id) c') :
      Effect e l (l'.put c')
  /-- reports come in, or one is dispatched -/
  | report (l : TcpListener) (reported : ℕ → Option Interest)
      (h : ∀ id c, l.objects id = some c → c.isOpen = true → Settled (reported id) c) :
      Effect e l { l with reported }
  | discard (l : TcpListener) (r id : ℕ) (he : e = .discard r) (hr : (r, id) ∈ l.responders) :
      Effect e l (l.spend r (.discarded r id))
  /-- a responder is called after its connection has been closed -/
  | ignore (l : TcpListener) (r : ℕ) (c : Connection) (hr : (r, c.id) ∈ l.responders)
      (hc : l.objects c.id = some c) (hclosed : c.isOpen = false) :
      Effect e l (l.spend r (.responded r c.id))
  | accept (l : TcpListener) (peer : SockAddr) (watched : Bool) :
      Effect e l (l.acceptOne peer watched)
  | pause (l : TcpListener) :
      Effect e l { l with
        accepting := false
        acceptRetry := some l.nextTimer
        timers := Function.update l.timers l.nextTimer (some .acceptRetry)
        nextTimer := l.nextTimer + 1 }
  /-- the timer of a connection that has been closed -/
  | expire (l : TcpListener) (tid id : ℕ) (htid : l.timers tid = some (.idle id))
      (hid : id ∉ l.connections) : Effect e l { l with timers := Function.update l.timers tid none }
  | resume (l : TcpListener) (tid : ℕ) (htid : l.timers tid = some .acceptRetry) :
      Effect e l { l with
        timers := Function.update l.timers tid none, acceptRetry := none, accepting := true }

abbrev Effects (e : Event) : TcpListener → TcpListener → Prop := Relation.ReflTransGen (Effect e)

/-- The bookkeeping of the listener. -/
structure Sound (l : TcpListener) : Prop where
  registered : Registered l
  timed : Timed l
  nested : Nested l
  counted : Counted l
  settled : ∀ id c, l.objects id = some c → c.isOpen = true → Settled (l.reported id) c

theorem effects_acceptable {e : Event} : ∀ (results : List Accepted) (l : TcpListener),
    Effects e l (l.onAcceptable results)
  | [], _ => .refl
  | .again :: _, _ => .refl
  | .exhausted :: _, l => .single (.pause l)
  | .aborted :: rest, l => effects_acceptable rest l
  | .connection peer watched :: rest, l =>
    .head (.accept l peer watched) (effects_acceptable rest (l.acceptOne peer watched))

theorem mem_of_connectionOf (h : l.connectionOf r = some id) : (r, id) ∈ l.responders := by
  obtain ⟨⟨r', id'⟩, hfind, rfl⟩ := Option.map_eq_some_iff.1 h
  obtain rfl : r' = r := by simpa using List.find?_some hfind
  exact List.mem_of_find?_eq_some hfind

theorem on_eq_some {f : TcpListener → Connection → TcpListener × Connection}
    (h : l.on id f = some l') : ∃ c, l.objects id = some c ∧ l' = (f l c).1.put (f l c).2 := by
  obtain ⟨c, hc, rfl⟩ := Option.map_eq_some_iff.1 h
  exact ⟨c, hc, rfl⟩

/-- The idle timer fires: it is armed again, or the connection is closed. -/
theorem onIdle_eq (htid : c.idleTimer = some tid) :
    { l with timers := Function.update l.timers tid none }.onIdle c =
      if 0 < c.pending then l.armIdleTimer c else l.close c := by
  unfold onIdle
  dsimp only
  split_ifs
  · unfold armIdleTimer
    rw [htid]
    rfl
  · unfold close
    rw [htid]
    rfl

theorem dispatch_effect {e : Event} (h : Sound l) (id : ℕ) :
    Effect e l { l with reported := Function.update l.reported id none } := by
  refine .report l _ fun id' c hc hopen => ?_
  have hsettled := h.settled id' c hc hopen
  by_cases hid : id' = id
  · rw [hid, Function.update_self]
    exact hsettled.dispatched
  · rwa [Function.update_of_ne hid]

/-- **What an event can do.** -/
theorem step_effects {e : Event} (h : Sound l) (hstep : Step l e l') : Effects e l l' := by
  unfold Step at hstep
  cases e with
  | acceptable results =>
    simp only [apply] at hstep
    split_ifs at hstep
    obtain rfl := Option.some.inj hstep
    exact effects_acceptable _ l
  | poll =>
    simp only [apply] at hstep
    split_ifs at hstep with hstack
    obtain rfl := Option.some.inj hstep
    refine .single (.report l _ fun id c hc hopen => ?_)
    have hidle : c.processing = false := by
      refine Bool.not_eq_true _ ▸ mt (h.nested.entries id c hc).1 ?_
      rw [busy, List.isEmpty_iff.1 hstack]
      exact List.not_mem_nil
    rw [hc]
    exact (h.settled id c hc hopen).polled hidle
  | ready id hangup readable writable io =>
    simp only [apply] at hstep
    split_ifs at hstep with hready hmem
    · obtain ⟨c, hc, rfl⟩ := on_eq_some hstep
      have hc' : l.objects id = some c := hc
      obtain ⟨rfl, -, hlisted⟩ := h.registered.entries id c hc'
      have hopen := hlisted.2 hmem
      refine .tail (.single (dispatch_effect h c.id)) (.focus hc (moves_onEvent hangup readable writable hopen) ?_)
      dsimp only
      rw [Function.update_self]
      refine settled_onEvent io _ hangup writable (h.settled c.id c hc' hopen) fun hread => ?_
      obtain ⟨i, hi, hcovers⟩ := (Option.any_eq_true _ _).1 ((Bool.and_eq_true _ _).mp hready).2
      rw [hi]
      rw [Interest.covers, hread] at hcovers
      exact ((Bool.and_eq_true _ _).mp hcovers).1
    · obtain rfl := Option.some.inj hstep
      exact .single (dispatch_effect h id)
  | timer tid =>
    simp only [apply] at hstep
    split_ifs at hstep
    split at hstep
    · cases hstep
    · next htid =>
      obtain rfl := Option.some.inj hstep
      exact .single (.resume l tid htid)
    · next id htid =>
      split_ifs at hstep with hmem
      · obtain ⟨c, hc, rfl⟩ := on_eq_some hstep
        have hc' : l.objects id = some c := hc
        obtain ⟨rfl, -, hlisted⟩ := h.registered.entries id c hc'
        have hopen := hlisted.2 hmem
        rw [onIdle_eq (((h.timed.entries _ c hc').2 tid).2 htid)]
        split_ifs
        · obtain ⟨hdue, hwaits, hwatched, hquiet⟩ := h.settled _ c hc' hopen
          exact .single (.focus hc' (.single (.arm l c hopen)) fun _ => ⟨hdue, hwaits, hwatched, hquiet⟩)
        · exact .single (.focus hc' (.single (.close l c hopen)) fun hopen' =>
            absurd hopen' Bool.false_ne_true)
      · obtain rfl := Option.some.inj hstep
        exact .single (.expire l tid id htid hmem)
  | respond r response io =>
    simp only [apply] at hstep
    split at hstep
    · cases hstep
    · next id hr =>
      obtain ⟨c, hc, rfl⟩ := on_eq_some hstep
      have hc' : l.objects id = some c := hc
      obtain ⟨rfl, -, -⟩ := h.registered.entries id c hc'
      have hmem := mem_of_connectionOf hr
      cases hopen : c.isOpen with
      | true =>
        exact .single (.focus hc' (moves_respond response hopen hmem)
          (settled_respond io _ response (h.settled _ c hc' hopen).quiet))
      | false =>
        have hsame : (l.spend r (.responded r c.id)).respond io c response =
            (l.spend r (.responded r c.id), c) := by
          unfold respond
          rw [if_pos (by simp [hopen])]
        rw [hsame]
        dsimp only
        rw [put_self hc]
        exact .single (.ignore l r c hmem hc' hopen)
  | discard r =>
    obtain ⟨id, hr, rfl⟩ := Option.map_eq_some_iff.1 hstep
    exact .single (.discard l r id rfl (mem_of_connectionOf hr))
  | handled io =>
    simp only [apply] at hstep
    split at hstep
    · cases hstep
    · next f rest hstack =>
      obtain ⟨c, hc, rfl⟩ := on_eq_some hstep
      have hc' : l.objects f.connection = some c := hc
      obtain ⟨hid, -, -⟩ := h.registered.entries _ c hc'
      have hbusy : c.processing = true := by
        refine (h.nested.entries _ c hc').2 ?_
        unfold busy
        rw [hstack]
        exact List.mem_cons_self ..
      refine .single (.focus (hid ▸ hc') (moves_loop hstack hid.symm) fun hopen' => ?_)
      have hmoves : Moves (l, c) ({ l with stack := rest }.loop io c f.used f.after) :=
        moves_loop hstack hid.symm
      have hopen := moves_open hmoves hopen'
      refine settled_loop io _ c f.used f.after hbusy (fun hrefused => ?_) hopen'
      obtain ⟨hdrained, hfresh⟩ := (h.settled _ c hc' hopen).quiet hrefused
      rw [hid] at *
      refine ⟨fun hnoted => ?_, hfresh⟩
      exact absurd ((hdrained hnoted).1.symm.trans hbusy) Bool.false_ne_true

/-! ### Every effect keeps the books -/

theorem sound_focus (hc : l.objects c.id = some c) (h : Moves (l, c) (l', c'))
    (hsettled : c'.isOpen = true → Settled (l.reported c.id) c') (hs : Sound l) : Sound (l'.put c') := by
  have hkeep : Registered (l'.put c') ∧ Timed (l'.put c') ∧ Nested (l'.put c') ∧
      Counted (l'.put c') := by
    refine moves_keep (P := fun s => Registered (s.1.put s.2) ∧ Timed (s.1.put s.2) ∧
      Nested (s.1.put s.2) ∧ Counted (s.1.put s.2)) (fun a b hab ha => ?_) h ?_
    · obtain ⟨hr, ht, hn, hcount⟩ := ha
      exact ⟨registered_move hab hr, timed_move hab hr ht, nested_move hab hr hn,
        counted_move hab hr hcount⟩
    · rw [put_self hc]
      exact ⟨hs.registered, hs.timed, hs.nested, hs.counted⟩
  obtain ⟨hobjects, hid⟩ := moves_frame h
  refine ⟨hkeep.1, hkeep.2.1, hkeep.2.2.1, hkeep.2.2.2, forall_put.2 ⟨?_, fun id x _ hx => ?_⟩⟩
  · show c'.isOpen = true → Settled (l'.reported c'.id) c'
    rw [moves_reported h, hid]
    exact hsettled
  · show x.isOpen = true → Settled (l'.reported id) x
    rw [moves_reported h]
    exact hs.settled id x (hobjects ▸ hx)

theorem discards_cons (l : TcpListener) (fact : Fact) (id : ℕ) :
    discards { l with log := fact :: l.log } id =
      discards l id + if isDiscard id fact then 1 else 0 :=
  List.countP_cons

theorem counted_spend {fact : Fact} (hr : (r, id) ∈ l.responders)
    (hfact : fact = .discarded r id ∨
      fact = .responded r id ∧ ∃ c, l.objects id = some c ∧ c.isOpen = false)
    (h : Counted l) : Counted (l.spend r fact) := by
  obtain ⟨hentries, hkeys, hfresh, hunknown⟩ := h
  have hspend := outstanding_spend hkeys hr fact
  have hdiscards : ∀ id', discards (l.spend r fact) id' =
      discards l id' + if isDiscard id' fact then 1 else 0 := discards_cons l fact
  have hknown : ∀ id', l.nextId ≤ id' → id ≠ id' := by
    rintro id' hid' rfl
    have hzero := (hunknown id hid').1
    rw [hspend, if_pos rfl] at hzero
    omega
  refine ⟨fun id' c hc hopen => ?_, hkeys.sublist (List.filter_sublist.map Prod.fst),
    fun x hx => hfresh x (List.mem_of_mem_filter hx), fun id' hid' => ?_⟩
  · have hcount := hentries id' c hc hopen
    rw [hspend] at hcount
    rw [hdiscards]
    rcases hfact with rfl | ⟨rfl, d, hd, hclosed⟩
    · simp only [isDiscard, beq_iff_eq]
      omega
    · have hne : id ≠ id' := by
        rintro rfl
        obtain rfl := Option.some.inj (hd.symm.trans hc)
        exact absurd (hclosed.symm.trans hopen) Bool.false_ne_true
      rw [if_neg hne] at hcount
      simpa [isDiscard] using hcount
  · obtain ⟨hnone, hzero⟩ := hunknown id' hid'
    have hne := hknown id' hid'
    rw [hspend, if_neg hne] at hnone
    refine ⟨hnone, ?_⟩
    rw [hdiscards, hzero]
    rcases hfact with rfl | ⟨rfl, -⟩ <;> simp [isDiscard, hne]

theorem timed_drop (h : Timed l) (hfree : ∀ id c, l.objects id = some c → c.idleTimer ≠ some tid) :
    Timed { l with timers := Function.update l.timers tid none } := by
  refine ⟨fun id c hc => ⟨(h.entries id c hc).1, fun tid' => ?_⟩, fun tid' htid' => ?_,
    fun tid' id htid' => h.below tid' id (update_none htid').2⟩
  · rw [(h.entries id c hc).2 tid']
    refine ⟨fun htimer => ?_, fun htimer => (update_none htimer).2⟩
    have hne : tid' ≠ tid := by
      rintro rfl
      exact hfree id c hc (((h.entries id c hc).2 tid').2 htimer)
    exact (Function.update_of_ne hne ..).trans htimer
  · rw [Option.eq_none_iff_forall_ne_some]
    intro t ht
    exact absurd ((h.fresh tid' htid').symm.trans (update_none ht).2) (by simp)

/-- Only the timers change, and whether connections are accepted. -/
theorem sound_retimed (h : Sound l) {accepting : Bool} {acceptRetry : Option ℕ}
    {timers : ℕ → Option Timer} {nextTimer : ℕ}
    (ht : Timed { l with timers, nextTimer }) :
    Sound { l with accepting, acceptRetry, timers, nextTimer } := by
  obtain ⟨hregistered, -, hn, hcount, hsettled⟩ := h
  exact ⟨⟨hregistered.entries, hregistered.below, hregistered.nodup⟩,
    ⟨ht.entries, ht.fresh, ht.below⟩, ⟨hn.entries, hn.nodup, hn.below⟩,
    ⟨hcount.entries, hcount.keys, hcount.fresh, hcount.unknown⟩, hsettled⟩

/-- A number for a connection that is given up at once. -/
theorem sound_later (h : Sound l) : Sound { l with nextId := l.nextId + 1 } := by
  obtain ⟨⟨hentries, hbelow, hnodup⟩, ht, hn, hc, hsettled⟩ := h
  refine ⟨⟨fun id c hc => ?_, fun id hid => Nat.lt_succ_of_lt (hbelow id hid), hnodup⟩,
    ⟨ht.entries, ht.fresh, fun tid id htid => Nat.lt_succ_of_lt (ht.below tid id htid)⟩,
    ⟨hn.entries, hn.nodup, fun id hid => Nat.lt_succ_of_lt (hn.below id hid)⟩,
    ⟨hc.entries, hc.keys, hc.fresh, fun id hid => hc.unknown id (Nat.le_of_succ_le hid)⟩, hsettled⟩
  obtain ⟨hid, hold, hlisted⟩ := hentries id c hc
  exact ⟨hid, Nat.lt_succ_of_lt hold, hlisted⟩

theorem sound_accept (peer : SockAddr) (watched : Bool) (h : Sound l) :
    Sound (l.acceptOne peer watched) := by
  unfold acceptOne
  dsimp only
  split_ifs with hfull hlost
  · exact h
  · exact sound_later h
  · obtain ⟨⟨hentries, hbelow, hnodup⟩, ht, hn, hcount, hsettled⟩ := sound_later h
    have hnew : ∀ id x, l.objects id = some x → id ≠ l.nextId := fun id x hx =>
      (h.registered.entries id x hx).2.1.ne
    refine ⟨⟨forall_put.2 ⟨⟨rfl, Nat.lt_succ_self _, iff_of_true rfl (List.mem_cons_self ..)⟩,
        fun id x hne hx => ?_⟩, List.forall_mem_cons.2 ⟨Nat.lt_succ_self _, hbelow⟩,
        List.nodup_cons.2 ⟨fun hmem => ?_, hnodup⟩⟩,
      timed_arm (Nat.lt_succ_self _) rfl (fun tid => iff_of_false (by simp) fun htid => ?_)
        (fun id x _ hx => ht.entries id x hx) ht.fresh ht.below,
      ⟨forall_put.2 ⟨iff_of_false Bool.false_ne_true fun hmem => ?_,
        fun id x _ hx => hn.entries id x hx⟩, hn.nodup, hn.below⟩,
      ⟨forall_put.2 ⟨fun _ => ?_, fun id x _ hx => hcount.entries id x hx⟩, hcount.keys,
        hcount.fresh, hcount.unknown⟩,
      forall_put.2 ⟨fun _ => ⟨.inr (.inl rfl), fun _ hwhole => absurd hwhole Bool.false_ne_true,
        fun _ _ _ => ⟨rfl, show 0 < kMaxPipelined by decide⟩, fun _ => ⟨fun _ => ⟨rfl, rfl⟩, fun _ => rfl⟩⟩,
        fun id x _ hx => hsettled id x hx⟩⟩
    · obtain ⟨hid, hold, hlisted⟩ := hentries id x hx
      exact ⟨hid, hold, hlisted.trans (List.mem_cons.trans (or_iff_right (hnew id x hx))).symm⟩
    · exact absurd (h.registered.below _ hmem) (lt_irrefl _)
    · exact absurd (h.timed.below tid _ htid) (lt_irrefl _)
    · exact absurd (h.nested.below _ hmem) (lt_irrefl _)
    · obtain ⟨hnone, hzero⟩ := h.counted.unknown l.nextId le_rfl
      show 0 = outstanding l l.nextId + discards l l.nextId
      rw [hnone, hzero]

theorem sound_spend {fact : Fact} (hcount : Counted (l.spend r fact)) (h : Sound l) :
    Sound (l.spend r fact) := by
  obtain ⟨hregistered, ht, hn, -, hsettled⟩ := h
  exact ⟨⟨hregistered.entries, hregistered.below, hregistered.nodup⟩,
    ⟨ht.entries, ht.fresh, ht.below⟩, ⟨hn.entries, hn.nodup, hn.below⟩, hcount, hsettled⟩

/-- **Every effect keeps the books.** -/
theorem sound_effect {e : Event} (hab : Effect e l l') (h : Sound l) : Sound l' := by
  cases hab with
  | focus hc hmoves hsettled => exact sound_focus hc hmoves hsettled h
  | report reported hsettled =>
    obtain ⟨hregistered, ht, hn, hcount, -⟩ := h
    exact ⟨⟨hregistered.entries, hregistered.below, hregistered.nodup⟩,
      ⟨ht.entries, ht.fresh, ht.below⟩, ⟨hn.entries, hn.nodup, hn.below⟩,
      ⟨hcount.entries, hcount.keys, hcount.fresh, hcount.unknown⟩, hsettled⟩
  | discard r id he hr => exact sound_spend (counted_spend hr (.inl rfl) h.counted) h
  | ignore r c hr hc hclosed =>
    exact sound_spend (counted_spend hr (.inr ⟨rfl, c, hc, hclosed⟩) h.counted) h
  | accept peer watched => exact sound_accept peer watched h
  | pause =>
    have hnone := h.timed.fresh l.nextTimer le_rfl
    refine sound_retimed h ⟨fun id c hc => ⟨(h.timed.entries id c hc).1, fun tid => ?_⟩,
      fun tid htid => ?_, fun tid id htid => ?_⟩
    · rw [(h.timed.entries id c hc).2 tid]
      by_cases htid : tid = l.nextTimer
      · simp [htid, hnone]
      · simp [htid]
    · have hlt : l.nextTimer < tid := htid
      exact (Function.update_of_ne hlt.ne' ..).trans (h.timed.fresh tid hlt.le)
    · rcases update_some htid with ⟨-, hidle⟩ | ⟨-, htid⟩
      · cases hidle
      · exact h.timed.below tid id htid
  | expire tid id htid hid =>
    refine sound_retimed h (timed_drop h.timed fun id' c hc htimer => hid ?_)
    have hown := ((h.timed.entries id' c hc).2 tid).1 htimer
    obtain rfl : id' = id := Timer.idle.inj (Option.some.inj (hown.symm.trans htid))
    obtain ⟨-, -, hlisted⟩ := h.registered.entries id' c hc
    exact hlisted.1 ((h.timed.entries id' c hc).1.2 (by rw [htimer]; rfl))
  | resume tid htid =>
    refine sound_retimed h (timed_drop h.timed fun id c hc htimer => ?_)
    have hown := ((h.timed.entries id c hc).2 tid).1 htimer
    exact absurd (hown.symm.trans htid) (by simp)

theorem effects_keep {P : TcpListener → Prop} {e : Event}
    (heffect : ∀ l l', Effect e l l' → P l → P l') (hab : Effects e l l') (h : P l) : P l' := by
  induction hab with
  | refl => exact h
  | tail _ hlast ih => exact heffect _ _ hlast ih

theorem sound_step {e : Event} (h : Sound l) (hstep : Step l e l') : Sound l' :=
  effects_keep (fun _ _ => sound_effect) (step_effects h hstep) h

theorem sound_init (config : TcpListenerConfig) : Sound { config } := by
  refine ⟨⟨?_, ?_, List.nodup_nil⟩, ⟨?_, fun _ _ => rfl, ?_⟩, ⟨?_, List.nodup_nil, ?_⟩,
    ⟨?_, List.nodup_nil, ?_, fun _ _ => ⟨rfl, rfl⟩⟩, ?_⟩ <;> simp [busy]

/-- **The books are right in every state of a run.** -/
theorem sound_run {config : TcpListenerConfig} {es : List Event} (h : Run Step { config } es l) :
    Sound l :=
  h.invariant (P := Sound) (fun _ _ _ hl hstep => sound_step hl hstep) (sound_init config)

/-! ### Closing -/

/-- The idle timer of a connection that nothing is pending for. -/
theorem timer_closes (h : Sound l) (hc : l.objects id = some c)
    (htid : l.timers tid = some (.idle id)) (hpending : c.pending = 0)
    (hstep : Step l (.timer tid) l') : id ∉ l'.connections := by
  unfold Step at hstep
  simp only [apply] at hstep
  split_ifs at hstep
  rw [htid] at hstep
  dsimp only at hstep
  split_ifs at hstep with hmem
  · obtain ⟨d, hd, rfl⟩ := on_eq_some hstep
    obtain rfl : c = d := Option.some.inj (hc.symm.trans hd)
    obtain ⟨rfl, -, -⟩ := h.registered.entries id c hc
    rw [onIdle_eq (((h.timed.entries _ c hc).2 tid).2 htid), if_neg (by omega)]
    exact h.registered.nodup.not_mem_erase
  · obtain rfl := Option.some.inj hstep
    exact hmem

end DNSentinel.Net.Connections
