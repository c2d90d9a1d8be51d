import DNSentinel.Net.Connections
import Mathlib.Data.List.Count

/-! # The limits of the TCP listener

`connections_` and `per_client_` are kept in step with the descriptors by `on_acceptable` and `close`
alone. So is the number of times a connection has been closed, which `close` and the destructor write
to the log. -/

namespace DNSentinel.Net.ConnectionLimits

open DNSentinel.Types Lib.Runs Lib.Pairs Policy.Addresses Tcp Tcp.TcpListener Connections

variable {l l' : TcpListener} {c : Connection} {config : TcpListenerConfig} {id : ℕ}

/-! ### What is counted -/

/-- An entry of a map of counts that has no zeros. -/
def entry (n : ℕ) : Option ℕ := if n = 0 then none else some n

/-- The connections of `connections_` that come from an address. -/
def openFrom (l : TcpListener) (client : List UInt8) : ℕ :=
  l.connections.countP fun id => (l.objects id).any fun c => ipKey c.peer == client

def isClose (id : ℕ) : Fact → Bool
  | .closed id' => id' == id
  | _ => false

/-- How often a connection has been closed. -/
def closes (l : TcpListener) (id : ℕ) : ℕ := l.log.countP (isClose id)

/-- The books are right, and the limits hold. -/
structure Exact (config : TcpListenerConfig) (l : TcpListener) : Prop where
  listed : ∀ id, id ∈ l.connections ↔ ∃ c, l.objects id = some c ∧ c.isOpen = true
  nodup : l.connections.Nodup
  counts : ∀ client, l.perClient client = entry (openFrom l client)
  once : ∀ id, closes l id = if (l.objects id).any fun c => !c.isOpen then 1 else 0
  atEnd : ∀ id, closes l.destroy id = if (l.objects id).isSome then 1 else 0
  total : l.connections.length ≤ config.maxConnections
  fromClient : ∀ client n, l.perClient client = some n → n ≤ config.maxPerClient

/-! ### The counts of a client -/

theorem release_entry {perClient : List UInt8 → Option ℕ} {n : List UInt8 → ℕ} {client : List UInt8}
    (h : ∀ x, perClient x = entry (n x)) (hpos : 0 < n client) (x : List UInt8) :
    release perClient client x = entry (n x - if client = x then 1 else 0) := by
  have hsome : perClient client = some (n client) := by
    rw [h, entry, if_neg hpos.ne']
  unfold release
  rw [hsome]
  dsimp only
  rw [if_neg hpos.ne']
  by_cases hx : client = x
  · subst hx
    rw [Function.update_self, if_pos rfl, entry]
  · rw [Function.update_of_ne (Ne.symm hx), if_neg hx, h, Nat.sub_zero]

theorem getD_entry (n : ℕ) : (entry n).getD 0 = n := by
  unfold entry
  split_ifs with h
  · exact h.symm
  · rfl

theorem entry_eq_some {n m : ℕ} (h : entry n = some m) : n = m := by
  unfold entry at h
  split_ifs at h
  exact Option.some.inj h

theorem take_entry {perClient : List UInt8 → Option ℕ} {n : List UInt8 → ℕ} {client : List UInt8}
    (h : ∀ x, perClient x = entry (n x)) (x : List UInt8) :
    Function.update perClient client (some ((perClient client).getD 0 + 1)) x =
      entry (n x + if client = x then 1 else 0) := by
  by_cases hx : client = x
  · subst hx
    rw [Function.update_self, if_pos rfl, h, getD_entry, entry, if_neg (Nat.succ_ne_zero _)]
  · rw [Function.update_of_ne (Ne.symm hx), if_neg hx, h, Nat.add_zero]

/-! ### The books -/

/-- What the books say of a connection. -/
def view (l : TcpListener) (id : ℕ) : Option (List UInt8 × SockAddr × Bool) :=
  (l.objects id).map fun c => (c.client, c.peer, c.isOpen)

theorem view_put (l : TcpListener) (c : Connection) :
    view (l.put c) = Function.update (view l) c.id (some (c.client, c.peer, c.isOpen)) := by
  funext id
  unfold view put
  by_cases hid : id = c.id
  · subst hid
    rw [Function.update_self]
    exact (congrArg _ (Function.update_self ..)).trans rfl
  · rw [Function.update_of_ne hid]
    exact congrArg _ (Function.update_of_ne hid ..)

theorem openFrom_eq (l : TcpListener) (client : List UInt8) : openFrom l client =
    l.connections.countP fun id => (view l id).any fun v => ipKey v.2.1 == client := by
  unfold openFrom view
  simp only [Option.any_map]

/-- The books, as `on_acceptable` and `close` keep them. -/
structure Tallied (l : TcpListener) : Prop where
  known : ∀ id ∈ l.connections, (view l id).isSome = true
  client : ∀ id v, view l id = some v → v.1 = ipKey v.2.1
  counts : ∀ client, l.perClient client = entry (openFrom l client)
  once : ∀ id, closes l id = if (view l id).any fun v => !v.2.2 then 1 else 0
  total : l.connections.length ≤ l.config.maxConnections
  fromClient : 0 < l.config.maxPerClient ∨ l.config.maxConnections = 0 →
    ∀ client, openFrom l client ≤ l.config.maxPerClient

/-- Nothing changes that the books are about. -/
structure Alike (l l' : TcpListener) : Prop where
  config : l'.config = l.config
  connections : l'.connections = l.connections
  perClient : l'.perClient = l.perClient
  view : view l' = view l
  closes : closes l' = closes l

theorem Alike.tallied (h : Alike l l') (ht : Tallied l) : Tallied l' := by
  have hopen : ∀ client, openFrom l' client = openFrom l client := fun client => by
    rw [openFrom_eq, openFrom_eq, h.connections, h.view]
  refine ⟨?_, ?_, fun client => ?_, fun id => ?_, ?_, fun hlimit client => ?_⟩
  · rw [h.connections, h.view]
    exact ht.known
  · rw [h.view]
    exact ht.client
  · rw [h.perClient, hopen]
    exact ht.counts client
  · rw [h.closes, h.view]
    exact ht.once id
  · rw [h.connections, h.config]
    exact ht.total
  · rw [h.config] at hlimit ⊢
    rw [hopen]
    exact ht.fromClient hlimit client

/-- A connection is changed in what the books do not say. -/
theorem alike_put {c' : Connection} (hconfig : l'.config = l.config)
    (hconnections : l'.connections = l.connections) (hperClient : l'.perClient = l.perClient)
    (hobjects : l'.objects = l.objects) (hcloses : closes l' = closes l)
    (hc : (c'.id, c'.client, c'.peer, c'.isOpen) = (c.id, c.client, c.peer, c.isOpen)) :
    Alike (l.put c) (l'.put c') := by
  refine ⟨hconfig, hconnections, hperClient, ?_, hcloses⟩
  obtain ⟨hid, hrest⟩ := Prod.mk.inj hc
  have hview : view l' = view l := by
    unfold view
    rw [hobjects]
  rw [view_put, view_put, hid, hrest, hview]

/-- A move closes the connection, or the books are not about it. -/
theorem move_alike {a b : TcpListener × Connection} (hab : Move a b) :
    Alike (a.1.put a.2) (b.1.put b.2) ∨ a.2.isOpen = true ∧ b = a.1.close a.2 := by
  cases hab with
  | close l c hopen => exact .inr ⟨hopen, rfl⟩
  | _ => exact .inl (alike_put rfl rfl rfl rfl rfl rfl)

/-! ### Closing -/

theorem view_close (l : TcpListener) (c : Connection) :
    view ((l.close c).1.put (l.close c).2) =
      Function.update (view l) c.id (some (c.client, c.peer, false)) :=
  view_put (l.close c).1 (l.close c).2

theorem openFrom_close (hid : c.id ∈ l.connections) (client : List UInt8) :
    openFrom ((l.close c).1.put (l.close c).2) client =
      openFrom (l.put c) client - if ipKey c.peer = client then 1 else 0 := by
  have hsame : (fun id => (view ((l.close c).1.put (l.close c).2) id).any
        fun v => ipKey v.2.1 == client) =
      fun id => (view (l.put c) id).any fun v => ipKey v.2.1 == client := by
    funext id
    rw [view_close, view_put]
    by_cases hne : id = c.id
    · subst hne
      rw [Function.update_self, Function.update_self]
      rfl
    · rw [Function.update_of_ne hne, Function.update_of_ne hne]
  rw [openFrom_eq, openFrom_eq, hsame]
  show (l.connections.erase c.id).countP _ = l.connections.countP _ - _
  rw [List.countP_erase]
  have hown : (view (l.put c) c.id).any (fun v => ipKey v.2.1 == client) = true ↔
      ipKey c.peer = client := by
    rw [view_put, Function.update_self]
    exact beq_iff_eq
  simp only [hid, true_and, hown]

theorem closes_cons (l : TcpListener) (fact : Fact) (id : ℕ) :
    closes { l with log := fact :: l.log } id = closes l id + if isClose id fact then 1 else 0 :=
  List.countP_cons

theorem tallied_close (hregistered : Registered (l.put c)) (hopen : c.isOpen = true)
    (h : Tallied (l.put c)) : Tallied ((l.close c).1.put (l.close c).2) := by
  obtain ⟨⟨-, -, hlisted⟩, -⟩ := forall_put.1 hregistered.entries
  have hmem : c.id ∈ l.connections := hlisted.1 hopen
  have hown : view (l.put c) c.id = some (c.client, c.peer, c.isOpen) := by
    rw [view_put, Function.update_self]
  have hclient : c.client = ipKey c.peer := h.client c.id _ hown
  have hpos : 0 < openFrom (l.put c) c.client := by
    rw [openFrom_eq]
    refine List.countP_pos_iff.2 ⟨c.id, hmem, ?_⟩
    rw [hown, hclient]
    exact beq_self_eq_true _
  have hview : ∀ id, id ≠ c.id → view ((l.close c).1.put (l.close c).2) id = view (l.put c) id := by
    intro id hne
    rw [view_close, view_put, Function.update_of_ne hne, Function.update_of_ne hne]
  have hshut : view ((l.close c).1.put (l.close c).2) c.id = some (c.client, c.peer, false) := by
    rw [view_close, Function.update_self]
  refine ⟨fun id hid => ?_, fun id v hv => ?_, fun client => ?_, fun id => ?_, ?_,
    fun hlimit client => ?_⟩
  · have hne : id ≠ c.id := by
      rintro rfl
      exact hregistered.nodup.not_mem_erase hid
    rw [hview id hne]
    exact h.known id (List.mem_of_mem_erase hid)
  · by_cases hne : id = c.id
    · subst hne
      rw [hshut] at hv
      obtain rfl := Option.some.inj hv
      exact hclient
    · rw [hview id hne] at hv
      exact h.client id v hv
  · rw [openFrom_close hmem, ← hclient]
    exact release_entry h.counts hpos client
  · have hlog : closes ((l.close c).1.put (l.close c).2) id =
        closes l id + if isClose id (.closed c.id) then 1 else 0 := closes_cons l (.closed c.id) id
    have honce : closes l id = if (view (l.put c) id).any fun v => !v.2.2 then 1 else 0 := h.once id
    rw [hlog, honce]
    by_cases hne : id = c.id
    · subst hne
      rw [hown, hshut]
      simp [isClose, hopen]
    · rw [hview id hne]
      simp [isClose, Ne.symm hne]
  · exact (List.length_erase_le ..).trans h.total
  · rw [openFrom_close hmem]
    exact (Nat.sub_le ..).trans (h.fromClient hlimit client)

theorem tallied_move {a b : TcpListener × Connection} (hab : Move a b)
    (hregistered : Registered (a.1.put a.2)) (h : Tallied (a.1.put a.2)) : Tallied (b.1.put b.2) := by
  rcases move_alike hab with halike | ⟨hopen, rfl⟩
  · exact halike.tallied h
  · exact tallied_close hregistered hopen h

/-! ### Accepting -/

theorem tallied_accept (peer : SockAddr) (watched : Bool) (hregistered : Registered l)
    (h : Tallied l) : Tallied (l.acceptOne peer watched) := by
  unfold acceptOne
  dsimp only
  split_ifs with hfull hlost
  · exact h
  · have hsame : Alike l { l with nextId := l.nextId + 1 } := ⟨rfl, rfl, rfl, rfl, rfl⟩
    exact hsame.tallied h
  · rw [not_or, not_le] at hfull
    obtain ⟨hroom, hfew⟩ := hfull
    set m := ({ l with
      nextId := l.nextId + 1
      perClient := Function.update l.perClient (ipKey peer)
        (some ((l.perClient (ipKey peer)).getD 0 + 1))
      connections := l.nextId :: l.connections }.armIdleTimer
        { id := l.nextId, peer, client := ipKey peer }) with hm
    have hview : view (m.1.put m.2) =
        Function.update (view l) l.nextId (some (ipKey peer, peer, true)) := view_put m.1 m.2
    have hnew : view l l.nextId = none := by
      unfold view
      rw [Option.map_eq_none_iff, Option.eq_none_iff_forall_ne_some]
      intro c hc
      exact absurd (hregistered.entries _ c hc).2.1 (lt_irrefl _)
    have hold : ∀ id ∈ l.connections, id ≠ l.nextId := fun id hid => (hregistered.below id hid).ne
    have hopen : ∀ client, openFrom (m.1.put m.2) client =
        openFrom l client + if ipKey peer = client then 1 else 0 := by
      intro client
      rw [openFrom_eq, openFrom_eq, hview]
      show (l.nextId :: l.connections).countP _ = _
      rw [List.countP_cons, Function.update_self]
      have hrest : (l.connections.countP fun id => (Function.update (view l) l.nextId
            (some (ipKey peer, peer, true)) id).any fun v => ipKey v.2.1 == client) =
          l.connections.countP fun id => (view l id).any fun v => ipKey v.2.1 == client := by
        refine List.countP_congr fun id hid => ?_
        rw [Function.update_of_ne (hold id hid)]
      rw [hrest]
      simp only [Option.any_some, beq_iff_eq]
    refine ⟨fun id hid => ?_, fun id v hv => ?_, fun client => ?_, fun id => ?_, ?_,
      fun hlimit client => ?_⟩
    · rw [hview]
      rcases List.mem_cons.1 hid with rfl | hid
      · rw [Function.update_self]
        rfl
      · rw [Function.update_of_ne (hold id hid)]
        exact h.known id hid
    · rw [hview] at hv
      rcases update_some hv with ⟨rfl, rfl⟩ | ⟨-, hv⟩
      · rfl
      · exact h.client id v hv
    · rw [hopen]
      exact take_entry h.counts client
    · rw [hview]
      have honce : closes l id = if (view l id).any fun v => !v.2.2 then 1 else 0 := h.once id
      by_cases hne : id = l.nextId
      · subst hne
        rw [Function.update_self]
        rw [hnew] at honce
        exact honce
      · rw [Function.update_of_ne hne]
        exact honce
    · exact hroom
    · rw [hopen]
      have hbefore : openFrom l client ≤ l.config.maxPerClient := h.fromClient hlimit client
      split_ifs with hpeer
      · subst hpeer
        show _ ≤ l.config.maxPerClient
        have hpos : 0 < l.config.maxPerClient := by
          have hlimit : 0 < l.config.maxPerClient ∨ l.config.maxConnections = 0 := hlimit
          omega
        rw [h.counts, entry] at hfew
        split_ifs at hfew with hnone
        · omega
        · simp only [Option.any_some, decide_eq_true_eq] at hfew
          omega
      · exact hbefore

/-! ### Runs -/

theorem tallied_effect {e : Event} (hab : Effect e l l') (hsound : Sound l) (h : Tallied l) :
    Tallied l' := by
  cases hab with
  | focus hc hmoves hdue =>
    have hkeep := moves_keep (P := fun s => Registered (s.1.put s.2) ∧ Tallied (s.1.put s.2))
      (fun a b hab ha => ⟨registered_move hab ha.1, tallied_move hab ha.1 ha.2⟩) hmoves
      (by rw [put_self hc]; exact ⟨hsound.registered, h⟩)
    exact hkeep.2
  | accept peer watched => exact tallied_accept peer watched hsound.registered h
  | _ => exact Alike.tallied (l := l) ⟨rfl, rfl, rfl, rfl, rfl⟩ h

theorem config_effect {e : Event} (hab : Effect e l l') : l'.config = l.config := by
  cases hab with
  | focus hc hmoves hdue =>
    refine moves_keep (P := fun s => s.1.config = l.config) (fun a b hab ha => ?_) hmoves rfl
    cases hab <;> exact ha
  | accept peer watched =>
    unfold acceptOne
    dsimp only
    split_ifs <;> rfl
  | _ => rfl

/-- **The books are right in every state of a run.** -/
theorem tallied_run {es : List Event} (h : Run Step { config } es l) :
    Sound l ∧ Tallied l ∧ l.config = config := by
  refine h.invariant (P := fun l => Sound l ∧ Tallied l ∧ l.config = config)
    (fun l e l' hl hstep => ?_) ⟨sound_init config, ?_, rfl⟩
  · obtain ⟨hsound, htallied, hconfig⟩ := hl
    refine effects_keep (P := fun l => Sound l ∧ Tallied l ∧ l.config = config)
      (fun a b hab ha => ?_) (step_effects hsound hstep) ⟨hsound, htallied, hconfig⟩
    exact ⟨sound_effect hab ha.1, tallied_effect hab ha.1 ha.2.1, (config_effect hab).trans ha.2.2⟩
  · refine ⟨?_, ?_, fun _ => rfl, fun _ => rfl, Nat.zero_le _, fun _ _ => Nat.zero_le _⟩ <;>
      simp [view]

/-! ### The destructor -/

theorem closes_abandon {x : ℕ} (h : (l.objects x).isSome = true) (id : ℕ) :
    closes (l.abandon x) id = closes l id + if x = id then 1 else 0 := by
  obtain ⟨c, hc⟩ := Option.isSome_iff_exists.1 h
  have hcons := closes_cons l (.closed x) id
  unfold abandon
  rw [hc]
  simp only [isClose, beq_iff_eq] at hcons
  exact hcons

theorem known_put (c : Connection) (h : (l.objects id).isSome = true) :
    ((l.put c).objects id).isSome = true := by
  show (Function.update l.objects c.id (some c) id).isSome = true
  by_cases hne : id = c.id
  · rw [hne, Function.update_self]
    rfl
  · rw [Function.update_of_ne hne]
    exact h

theorem known_abandon {x : ℕ} (h : (l.objects id).isSome = true) :
    ((l.abandon x).objects id).isSome = true := by
  unfold abandon
  split
  · exact h
  · exact known_put _ h

theorem closes_abandoned : ∀ (ids : List ℕ) (l : TcpListener),
    (∀ x ∈ ids, (l.objects x).isSome = true) → ∀ id,
    closes (ids.foldl abandon l) id = closes l id + ids.count id
  | [], _, _, _ => rfl
  | x :: ids, l, h, id => by
    obtain ⟨hx, hids⟩ := List.forall_mem_cons.1 h
    have ih := closes_abandoned ids (l.abandon x) (fun y hy => known_abandon (hids y hy)) id
    rw [List.foldl_cons, ih, closes_abandon hx, List.count_cons]
    simp only [beq_iff_eq]
    omega

theorem closes_destroy (hregistered : Registered l) (h : Tallied l) (id : ℕ) :
    closes l.destroy id = if (l.objects id).isSome then 1 else 0 := by
  have hknown : ∀ x ∈ l.connections, (l.objects x).isSome = true := fun x hx => by
    have hsome := h.known x hx
    rwa [view, Option.isSome_map] at hsome
  have hdestroy : closes l.destroy id = closes l id + l.connections.count id :=
    closes_abandoned l.connections
      { l with accepting := false, timers := without l.timers l.acceptRetry } hknown id
  have honce := h.once id
  rw [view, Option.any_map] at honce
  rw [hdestroy, hregistered.nodup.count, honce]
  cases hc : l.objects id with
  | none =>
    have habsent : id ∉ l.connections := fun hid => by
      have hsome := hknown id hid
      rw [hc] at hsome
      cases hsome
    rw [if_neg habsent]
    rfl
  | some c =>
    obtain ⟨-, -, hlisted⟩ := hregistered.entries id c hc
    cases hopen : c.isOpen with
    | true => simp [hopen, hlisted.1 hopen]
    | false =>
      have habsent : id ∉ l.connections := fun hid => by
        rw [hlisted.2 hid] at hopen
        cases hopen
      simp [hopen, habsent]

/-! ### The limits -/

theorem exact_run {es : List Event} (hlimit : 0 < config.maxPerClient ∨ config.maxConnections = 0)
    (h : Run Step { config } es l) : Exact config l := by
  obtain ⟨hsound, htallied, hconfig⟩ := tallied_run h
  refine ⟨fun id => ?_, hsound.registered.nodup, htallied.counts, fun id => ?_,
    closes_destroy hsound.registered htallied, hconfig ▸ htallied.total, fun client n hn => ?_⟩
  · constructor
    · intro hid
      have hknown := htallied.known id hid
      rw [view, Option.isSome_map] at hknown
      obtain ⟨c, hc⟩ := Option.isSome_iff_exists.1 hknown
      exact ⟨c, hc, (hsound.registered.entries id c hc).2.2.2 hid⟩
    · rintro ⟨c, hc, hopen⟩
      exact (hsound.registered.entries id c hc).2.2.1 hopen
  · have honce := htallied.once id
    rw [view, Option.any_map] at honce
    exact honce
  · rw [htallied.counts] at hn
    obtain rfl := entry_eq_some hn
    have hfew := htallied.fromClient (by rw [hconfig]; exact hlimit) client
    rwa [hconfig] at hfew

/-- A client connects. -/
def connects (peer : SockAddr) : Event := .acceptable [.connection peer true]

/-- The first connection is taken, whatever the limit for a client. -/
theorem connects_first (config : TcpListenerConfig) (peer : SockAddr)
    (h : 0 < config.maxConnections) :
    ∃ l, Run Step { config } [connects peer] l ∧ l.perClient (ipKey peer) = some 1 := by
  have hroom : ¬ (config.maxConnections ≤ ([] : List ℕ).length ∨ (none : Option ℕ).any
      (fun n => config.maxPerClient ≤ n) = true) := by
    rw [not_or, List.length_nil]
    exact ⟨by omega, by simp⟩
  refine ⟨TcpListener.acceptOne { config } peer true, .cons rfl (.nil _), ?_⟩
  unfold acceptOne
  dsimp only
  rw [if_neg hroom, if_neg (by simp)]
  show Function.update (fun _ => none) (ipKey peer) (some 1) (ipKey peer) = some 1
  rw [Function.update_self]

/-- **The limits of the listener are exact, unless a client may have no connection.** -/
theorem exact_iff (config : TcpListenerConfig) :
    (∀ es l, Run Step { config } es l → Exact config l) ↔
      0 < config.maxPerClient ∨ config.maxConnections = 0 := by
  constructor
  · intro h
    by_contra hnone
    rw [not_or] at hnone
    obtain ⟨l, hrun, hone⟩ := connects_first config .other (Nat.pos_of_ne_zero hnone.2)
    have hfew := (h _ l hrun).fromClient _ 1 hone
    omega
  · intro hlimit es l h
    exact exact_run hlimit h

theorem exact_fails_none_allowed :
    ∃ l, Run Step { config := { maxPerClient := 0 } } [connects (.inet 0x7F000001)] l ∧
      l.perClient [127, 0, 0, 1] = some 1 ∧ ¬ Exact { maxPerClient := 0 } l := by
  obtain ⟨l, hrun, hone⟩ := connects_first { maxPerClient := 0 } (.inet 0x7F000001)
    (by decide)
  have hkey : ipKey (.inet 0x7F000001) = [127, 0, 0, 1] := by decide
  rw [hkey] at hone
  refine ⟨l, hrun, hone, fun hexact => ?_⟩
  exact absurd (hexact.fromClient _ 1 hone) (by decide)

end DNSentinel.Net.ConnectionLimits
