import DNSentinel.Resolver.Callbacks
import DNSentinel.Server.Processor

/-! # The server as a whole

The query processor and the resolver, with any number of queries under way. A query is numbered when
it comes in; what became of it is recorded (`Fact`). A query number is a token: it is held by the
callback given to `resolve()` until that is called, and then spent. So every query is answered at
most once, and with a response that is its own. -/

namespace DNSentinel.Server.Serving

open DNSentinel.Types Lib.Runs Lib.Tokens Wire.Builder Policy.Addresses Policy.RateLimits
open Policy.Lists Resolver Resolver.Selection Resolver.Data Resolver.Core Resolver.Machine
open Resolver.Wiring Resolver.Events Resolver.Callbacks Processor

/-! ### The system -/

/-- What the callback that `handle` gives to `resolve()` has captured. -/
structure Continuation where
  query : ℕ
  client : ClientInfo
  checkChain : Bool
  response : Message

/-- A call of `handle`, with the processor as it was then. -/
structure Arrival where
  processor : QueryProcessor
  now : ℕ
  query : Message
  client : ClientInfo

inductive Fact where
  | handled (n : ℕ) (a : Arrival)
  /-- `handle` returned without further ado -/
  | dropped (n : ℕ)
  /-- `resolve()` was called with this callback -/
  | asked (n cb : ℕ)
  /-- the responder was called -/
  | responded (n : ℕ) (response : Message)
  /-- response rate limiting dropped the response -/
  | limited (n : ℕ)

structure Service where
  processor : QueryProcessor
  resolver : World
  /-- the resolver was destroyed; callbacks of resolutions that were over are still called -/
  destroyed : Bool := false
  nextQuery : ℕ := 0
  waiting : ℕ → Option Continuation := fun _ => none
  log : List Fact := []

namespace Service

/-- Call the responder given to `handle`. -/
def respond (s : Service) (n now : ℕ) (client : ClientInfo) (response : Message) : Service :=
  let (p, out) := s.processor.send now client response
  { s with
    processor := p
    log := (out.elim (.limited n) fun m => .responded n m) :: s.log }

/-- `QueryProcessor::handle`; the clock is read for the rate limit, then for the response. -/
def handle (cfg : Config) (s : Service) (now later : ℕ) (query : Message) (client : ClientInfo) :
    Service :=
  let n := s.nextQuery
  let (p, decision) := s.processor.handle now query client
  let s := { s with
    processor := p
    nextQuery := n + 1
    log := .handled n ⟨s.processor, now, query, client⟩ :: s.log }
  match decision with
  | .drop => { s with log := .dropped n :: s.log }
  | .respond response _ => s.respond n later client response
  | .resolve q checkChain response =>
    let cb := s.resolver.nextCallback
    { s with
      resolver := resolveClient cfg s.resolver q
      waiting := Function.update s.waiting cb (some ⟨n, client, checkChain, response⟩)
      log := .asked n cb :: s.log }

/-- The callback is called. -/
def callback (s : Service) (now cb : ℕ) (result : Outcome) : Service :=
  match s.waiting cb with
  | none => s
  | some k => s.respond k.query now k.client (s.processor.answer k.checkChain k.response result).response

end Service

inductive Event where
  | handle (now later : ℕ) (query : Message) (client : ClientInfo)
  /-- something happens in the resolver that does not go through a caller -/
  | resolver (e : Machine.Event)
  /-- the next callback is called -/
  | call (now : ℕ)
  /-- the lists were reloaded -/
  | reload (lists : Blocklists)
  | destroy

/-- An event, if it can happen: `none` if it cannot, or if `fuel` runs out. -/
def apply (cfg : Config) (env : Random) (fuel : ℕ) (s : Service) : Event → Option Service
  | .handle now later query client =>
    if s.destroyed then none else some (s.handle cfg now later query client)
  | .resolver e =>
    if s.destroyed || !isInternal e then none
    else (Machine.apply cfg env fuel s.resolver e).map fun w => { s with resolver := w }
  | .call now =>
    match s.resolver.calls with
    | [] => none
    | (cb, result) :: _ =>
      (Machine.apply cfg env fuel s.resolver .call).map fun w =>
        { s with resolver := w }.callback now cb result
  | .reload lists => some { s with processor := { s.processor with lists } }
  | .destroy => some { s with destroyed := true }

/-- **One event of a run.** -/
def Step (cfg : Config) (env : Random) (s : Service) (e : Event) (s' : Service) : Prop :=
  ∃ fuel, apply cfg env fuel s e = some s'

/-! ### Responses repeat the query -/

/-- The response repeats the query's ID, opcode, RD and CD bits, and its questions as they are. -/
structure Echoes (query response : Message) : Prop where
  id : response.header.id = query.header.id
  opcode : response.header.opcode = query.header.opcode
  rd : response.header.rd = query.header.rd
  cd : response.header.cd = query.header.cd
  questions : response.questions = query.questions

variable {query response : Message} {p : QueryProcessor} {now n cb : ℕ} {client : ClientInfo}

theorem echoes_makeResponse (query : Message) (rcode : RCode) :
    Echoes query (makeResponse query rcode) := ⟨rfl, rfl, rfl, rfl, rfl⟩

theorem Echoes.rcode (h : Echoes query response) (rcode : RCode) :
    Echoes query { response with header := { response.header with rcode } } :=
  ⟨h.id, h.opcode, h.rd, h.cd, h.questions⟩

theorem Echoes.sections (h : Echoes query response) (answers authority additional : List RR) :
    Echoes query { response with answers, authority, additional } :=
  ⟨h.id, h.opcode, h.rd, h.cd, h.questions⟩

theorem Echoes.blocked (h : Echoes query response) (lists : ListsConfig) :
    Echoes query (blocked response lists) := by
  unfold Processor.blocked
  dsimp only
  split_ifs
  · exact h.rcode _
  · exact h.sections _ _ _
  · exact h.sections _ _ _
  · exact h

theorem Echoes.answer (h : Echoes query response) (p : QueryProcessor) (checkChain : Bool)
    (result : Outcome) : Echoes query (p.answer checkChain response result).response := by
  cases result with
  | error e => exact h.rcode _
  | ok r =>
    unfold QueryProcessor.answer
    dsimp only
    split
    · exact h.blocked _
    · unfold QueryProcessor.realAnswer
      dsimp only
      split_ifs
      · exact h.rcode _
      all_goals exact (h.rcode _).sections _ _ _

theorem Echoes.send {m : Message} (h : Echoes query response)
    (hm : (p.send now client response).2 = some m) : Echoes query m := by
  unfold QueryProcessor.send at hm
  dsimp only at hm
  split_ifs at hm
  · split at hm
    · exact Option.some.inj hm ▸ h
    · obtain rfl := Option.some.inj hm
      exact ⟨h.id, h.opcode, h.rd, h.cd, h.questions⟩
    · simp at hm
  · exact Option.some.inj hm ▸ h

theorem handle_respond {event : Option BlockEvent}
    (h : (p.handle now query client).2 = .respond response event) : Echoes query response := by
  have hdeny : ∀ {action : DenyAction}, deny action query = .respond response event →
      Echoes query response := by
    intro action hdeny
    cases action with
    | drop => simp [deny] at hdeny
    | refuse =>
      obtain ⟨rfl, -⟩ := Decision.respond.inj hdeny
      exact echoes_makeResponse query _
  unfold QueryProcessor.handle at h
  dsimp only at h
  split_ifs at h
  · exact hdeny h
  · exact hdeny h
  · unfold QueryProcessor.handleAllowed at h
    dsimp only at h
    split at h
    · obtain ⟨rfl, -⟩ := Decision.respond.inj h
      exact echoes_makeResponse query _
    · split_ifs at h
      obtain ⟨rfl, -⟩ := Decision.respond.inj h
      exact (echoes_makeResponse query _).blocked _

/-! ### The ledger of queries -/

def handledOf : Fact → Option (ℕ × Arrival)
  | .handled n a => some (n, a)
  | _ => none

/-- The queries so far, by number. -/
def handled (log : List Fact) : List (ℕ × Arrival) := log.filterMap handledOf

def endedOf : Fact → Option ℕ
  | .dropped n => some n
  | .responded n _ => some n
  | .limited n => some n
  | _ => none

/-- The queries that are done with. -/
def ended (log : List Fact) : List ℕ := log.filterMap endedOf

/-- The query whose answer waits for the callback, given those that have been called. -/
def heldQueries (spent : List ℕ) (waiting : ℕ → Option Continuation) (cb : ℕ) : List ℕ :=
  if cb ∈ spent then [] else ((waiting cb).map Continuation.query).toList

/-- The callback was given to `resolve()` for a query that was let through. -/
def Waits (log : List Fact) (trace : List Obs) (cb : ℕ) (k : Continuation) : Prop :=
  ∃ a q, .handled k.query a ∈ log ∧ .asked k.query cb ∈ log ∧ a.client = k.client ∧
    (a.processor.handle a.now a.query a.client).2 = .resolve q k.checkChain k.response ∧
    .resolve cb q ∈ trace

/-- What the facts say is so. -/
structure LogOk (log : List Fact) : Prop where
  responded : ∀ n m, .responded n m ∈ log → ∃ a, .handled n a ∈ log ∧ Echoes a.query m
  dropped : ∀ n, .dropped n ∈ log → ∃ a, .handled n a ∈ log ∧ Denied a.processor a.now a.client

structure ServiceOk (s : Service) : Prop where
  ledger : Ledger (heldQueries (called s.resolver.trace) s.waiting) [] (ended s.log) s.nextQuery
  numbers : (handled s.log).map Prod.fst = (List.range s.nextQuery).reverse
  unused : ∀ cb, s.resolver.nextCallback ≤ cb → s.waiting cb = none
  waiting : ∀ cb k, s.waiting cb = some k → Waits s.log s.resolver.trace cb k
  resolves : ∀ cb q, .resolve cb q ∈ s.resolver.trace → (s.waiting cb).isSome
  log : LogOk s.log

variable {cfg : Config} {env : Random} {s s' : Service} {log log' : List Fact}
  {trace trace' : List Obs} {k : Continuation} {a : Arrival}

theorem Waits.mono (h : Waits log trace cb k) (hlog : log ⊆ log')
    (htrace : ∀ q, .resolve cb q ∈ trace → .resolve cb q ∈ trace') : Waits log' trace' cb k := by
  obtain ⟨a, q, hhandled, hasked, hclient, hhandle, hresolve⟩ := h
  exact ⟨a, q, hlog hhandled, hlog hasked, hclient, hhandle, htrace q hresolve⟩

/-- A fact that is neither a response nor a drop. -/
theorem LogOk.other {f : Fact} (h : LogOk log) (hresponded : ∀ n m, f ≠ .responded n m)
    (hdropped : ∀ n, f ≠ .dropped n) : LogOk (f :: log) := by
  constructor
  · intro n m hm
    obtain ⟨a, ha, hechoes⟩ :=
      h.responded n m (List.mem_of_ne_of_mem (hresponded n m).symm hm)
    exact ⟨a, List.mem_cons_of_mem _ ha, hechoes⟩
  · intro n hn
    obtain ⟨a, ha, hdenied⟩ := h.dropped n (List.mem_of_ne_of_mem (hdropped n).symm hn)
    exact ⟨a, List.mem_cons_of_mem _ ha, hdenied⟩

theorem LogOk.drop (h : LogOk log) (ha : .handled n a ∈ log)
    (hdenied : Denied a.processor a.now a.client) : LogOk (.dropped n :: log) := by
  constructor
  · intro n' m hm
    obtain ⟨a', ha', hechoes⟩ := h.responded n' m (List.mem_of_ne_of_mem (by simp) hm)
    exact ⟨a', List.mem_cons_of_mem _ ha', hechoes⟩
  · intro n' hn'
    rcases List.mem_cons.mp hn' with heq | hn'
    · obtain rfl := Fact.dropped.inj heq
      exact ⟨a, List.mem_cons_of_mem _ ha, hdenied⟩
    · obtain ⟨a', ha', hdenied'⟩ := h.dropped n' hn'
      exact ⟨a', List.mem_cons_of_mem _ ha', hdenied'⟩

theorem LogOk.respond {m : Message} (h : LogOk log) (ha : .handled n a ∈ log)
    (hechoes : Echoes a.query m) : LogOk (.responded n m :: log) := by
  constructor
  · intro n' m' hm'
    rcases List.mem_cons.mp hm' with heq | hm'
    · obtain ⟨rfl, rfl⟩ := Fact.responded.inj heq
      exact ⟨a, List.mem_cons_of_mem _ ha, hechoes⟩
    · obtain ⟨a', ha', hechoes'⟩ := h.responded n' m' hm'
      exact ⟨a', List.mem_cons_of_mem _ ha', hechoes'⟩
  · intro n' hn'
    obtain ⟨a', ha', hdenied⟩ := h.dropped n' (List.mem_of_ne_of_mem (by simp) hn')
    exact ⟨a', List.mem_cons_of_mem _ ha', hdenied⟩

/-- A response on its way out: the query is done with. -/
theorem respond_spec (s : Service) (n now : ℕ) (client : ClientInfo) (response : Message) :
    ∃ f p, s.respond n now client response = { s with processor := p, log := f :: s.log } ∧
      endedOf f = some n ∧ handledOf f = none ∧
      ∀ a, LogOk s.log → .handled n a ∈ s.log → Echoes a.query response → LogOk (f :: s.log) := by
  unfold Service.respond
  dsimp only
  refine ⟨_, _, rfl, ?_, ?_, ?_⟩
  · cases (s.processor.send now client response).2 <;> rfl
  · cases (s.processor.send now client response).2 <;> rfl
  · intro a hlog ha hechoes
    cases hout : (s.processor.send now client response).2 with
    | none => exact hlog.other (by simp) (by simp)
    | some m => exact hlog.respond ha (hechoes.send hout)

/-! ### Step by step -/

theorem called_lt (h : CallersOk s.resolver) (hcb : cb ∈ called s.resolver.trace) :
    cb < s.resolver.nextCallback :=
  (Ledger.issued h.ledger cb).mpr (.inr (List.mem_append_right _ hcb))

theorem heldQueries_unused (h : ServiceOk s) :
    heldQueries (called s.resolver.trace) s.waiting s.resolver.nextCallback = [] := by
  unfold heldQueries
  rw [h.unused _ le_rfl]
  split_ifs <;> rfl

theorem heldQueries_issue {spent : List ℕ} {waiting : ℕ → Option Continuation} (hcb : cb ∉ spent) :
    heldQueries spent (Function.update waiting cb (some k)) =
      Function.update (heldQueries spent waiting) cb [k.query] := by
  funext i
  unfold heldQueries
  by_cases hi : i = cb
  · subst hi
    rw [if_neg hcb, Function.update_self, Function.update_self]
    rfl
  · rw [Function.update_of_ne hi, Function.update_of_ne hi]

theorem heldQueries_spend (spent : List ℕ) (waiting : ℕ → Option Continuation) (cb : ℕ) :
    heldQueries (cb :: spent) waiting = Function.update (heldQueries spent waiting) cb [] := by
  funext i
  unfold heldQueries
  by_cases hi : i = cb
  · subst hi
    rw [if_pos List.mem_cons_self, Function.update_self]
  · rw [Function.update_of_ne hi]
    simp only [List.mem_cons, hi, false_or]

theorem numbers_cons {n : ℕ} (h : (handled log).map Prod.fst = (List.range n).reverse) :
    (handled (.handled n a :: log)).map Prod.fst = (List.range (n + 1)).reverse := by
  rw [List.range_succ, List.reverse_append, ← h]
  rfl

/-- The query comes in and is done with at once. -/
theorem ServiceOk.passed {f : Fact} {p : QueryProcessor} (h : ServiceOk s)
    (hended : endedOf f = some s.nextQuery) (hhandled : handledOf f = none)
    (hlog : LogOk (f :: .handled s.nextQuery a :: s.log)) :
    ServiceOk { s with processor := p, nextQuery := s.nextQuery + 1
                       log := f :: .handled s.nextQuery a :: s.log } where
  ledger := by
    have hpass := h.ledger.pass (heldQueries_unused h)
    have hmore : ended (f :: .handled s.nextQuery a :: s.log) = s.nextQuery :: ended s.log := by
      unfold ended
      rw [List.filterMap_cons_some hended]
      rfl
    rw [← hmore] at hpass
    exact hpass
  numbers := by
    show (handled (f :: .handled s.nextQuery a :: s.log)).map Prod.fst = _
    rw [handled, List.filterMap_cons_none hhandled]
    exact numbers_cons h.numbers
  unused := h.unused
  waiting cb k hk := (h.waiting cb k hk).mono
    (List.subset_cons_of_subset _ (List.subset_cons_self _ _)) fun _ hq => hq
  resolves := h.resolves
  log := hlog

/-- The query comes in and `resolve()` is called. -/
theorem ServiceOk.asked {p : QueryProcessor} {q : Question} {checkChain : Bool}
    (hr : CallersOk s.resolver) (h : ServiceOk s)
    (hhandle : (a.processor.handle a.now a.query a.client).2 = .resolve q checkChain response) :
    ServiceOk { s with
      processor := p
      resolver := resolveClient cfg s.resolver q
      nextQuery := s.nextQuery + 1
      waiting := Function.update s.waiting s.resolver.nextCallback
        (some ⟨s.nextQuery, a.client, checkChain, response⟩)
      log := .asked s.nextQuery s.resolver.nextCallback :: .handled s.nextQuery a :: s.log } where
  ledger := by
    have hissue := h.ledger.issue s.resolver.nextCallback
    have hnot : s.resolver.nextCallback ∉ called s.resolver.trace := fun hcb =>
      absurd (called_lt hr hcb) (Nat.lt_irrefl _)
    dsimp only
    rw [called_resolve, heldQueries_issue hnot]
    rw [heldQueries_unused h] at hissue
    exact hissue
  numbers := numbers_cons h.numbers
  unused cb hcb := by
    have hnext : (resolveClient cfg s.resolver q).nextCallback = s.resolver.nextCallback + 1 :=
      congrArg Prod.snd (front_resolve cfg s.resolver q)
    dsimp only at hcb ⊢
    rw [Function.update_of_ne (by omega)]
    exact h.unused cb (by omega)
  waiting cb k hk := by
    dsimp only at hk
    by_cases hcb : cb = s.resolver.nextCallback
    · subst hcb
      rw [Function.update_self] at hk
      obtain rfl := Option.some.inj hk
      exact ⟨a, q, by simp, by simp, rfl, hhandle, resolve_mem_resolve.mpr (.inl ⟨rfl, rfl⟩)⟩
    · rw [Function.update_of_ne hcb] at hk
      refine (h.waiting cb k hk).mono ?_ fun q' hq' => resolve_mem_resolve.mpr (.inr hq')
      exact List.subset_cons_of_subset _ (List.subset_cons_self _ _)
  resolves cb q' hq' := by
    dsimp only
    rcases resolve_mem_resolve.mp hq' with ⟨rfl, -⟩ | hq'
    · rw [Function.update_self]
      rfl
    · rw [Function.update_of_ne (Nat.ne_of_lt (hr.issued.lt hq'))]
      exact h.resolves cb q' hq'
  log := (h.log.other (by simp) (by simp)).other (by simp) (by simp)

/-- What holds of the server in every state. -/
structure Sound (s : Service) : Prop where
  resolver : CallersOk s.resolver
  service : ServiceOk s

theorem sound_handle (h : Sound s) (env : Random) (now later : ℕ) (query : Message)
    (client : ClientInfo) : Sound (s.handle cfg now later query client) := by
  have hmem : Fact.handled s.nextQuery ⟨s.processor, now, query, client⟩ ∈
      Fact.handled s.nextQuery ⟨s.processor, now, query, client⟩ :: s.log := List.mem_cons_self
  have hlog : LogOk (.handled s.nextQuery ⟨s.processor, now, query, client⟩ :: s.log) :=
    h.service.log.other (by simp) (by simp)
  unfold Service.handle
  dsimp only
  cases hdecision : (s.processor.handle now query client).2 with
  | drop => exact ⟨h.resolver, h.service.passed rfl rfl (hlog.drop hmem (handle_drop hdecision))⟩
  | respond response event =>
    dsimp only
    obtain ⟨f, p, heq, hended, hhandled, hok⟩ := respond_spec
      { s with processor := (s.processor.handle now query client).1, nextQuery := s.nextQuery + 1
               log := .handled s.nextQuery ⟨s.processor, now, query, client⟩ :: s.log }
      s.nextQuery later client response
    rw [heq]
    exact ⟨h.resolver, h.service.passed hended hhandled (hok _ hlog hmem (handle_respond hdecision))⟩
  | resolve q checkChain response =>
    have hstep : Machine.Step cfg env s.resolver (.resolve q) (resolveClient cfg s.resolver q) :=
      ⟨0, rfl⟩
    exact ⟨callersOk_step h.resolver hstep,
      h.service.asked (a := ⟨s.processor, now, query, client⟩) h.resolver hdecision⟩

/-- What the callbacks in the queue are for. -/
theorem waiting_of_queued {result : Outcome} (hr : CallersOk s.resolver) (h : ServiceOk s)
    (hcb : (cb, result) ∈ s.resolver.calls) : ∃ k, s.waiting cb = some k := by
  obtain ⟨q, -, -, -, hq, -⟩ := hr.answers.answered cb result (.inl hcb)
  exact Option.isSome_iff_exists.mp (h.resolves cb q hq)

theorem sound_call {result : Outcome} {rest : List (ℕ × Outcome)} (hsound : Sound s) (cfg : Config)
    (env : Random) (hcalls : s.resolver.calls = (cb, result) :: rest) (now : ℕ) :
    Sound ({ s with resolver :=
      { s.resolver with calls := rest }.log (.called cb result) }.callback now cb result) := by
  obtain ⟨hr, h⟩ := hsound
  have hstep : Machine.Step cfg env s.resolver .call
      ({ s.resolver with calls := rest }.log (.called cb result)) :=
    ⟨0, by simp only [Machine.apply, hcalls]⟩
  obtain ⟨k, hk⟩ := waiting_of_queued hr h (hcalls ▸ List.mem_cons_self)
  obtain ⟨a, q, hhandled, hasked, hclient, hhandle, hresolve⟩ := h.waiting cb k hk
  obtain ⟨-, -, hresponse, -⟩ := handle_resolve hhandle
  have hnot : cb ∉ called s.resolver.trace := by
    have hgone := Ledger.gone_nodup hr.ledger
    rw [hcalls] at hgone
    exact fun hcb => (List.nodup_cons.mp hgone).1 (List.mem_append_right _ hcb)
  have hheld : heldQueries (called s.resolver.trace) s.waiting cb = [k.query] := by
    rw [heldQueries, if_neg hnot, hk]
    rfl
  unfold Service.callback
  simp only [hk]
  obtain ⟨f, p, heq, hended, hnone, hok⟩ := respond_spec
    { s with resolver := { s.resolver with calls := rest }.log (.called cb result) } k.query now
    k.client (s.processor.answer k.checkChain k.response result).response
  rw [heq]
  refine ⟨callersOk_step hr hstep, ?_⟩
  constructor
  · have hsettle := h.ledger.settle hheld
    have hmore : ended (f :: s.log) = k.query :: ended s.log := List.filterMap_cons_some hended
    rw [← hmore, ← heldQueries_spend] at hsettle
    exact hsettle
  · show (handled (f :: s.log)).map Prod.fst = _
    rw [handled, List.filterMap_cons_none hnone]
    exact h.numbers
  · exact h.unused
  · exact fun i k' hk' => (h.waiting i k' hk').mono (List.subset_cons_self _ _)
      fun _ hq => List.mem_cons_of_mem _ hq
  · exact fun i q' hq' => h.resolves i q' (List.mem_of_ne_of_mem (by simp) hq')
  · refine hok a h.log hhandled (Echoes.answer ?_ _ _ _)
    rw [hresponse]
    exact echoes_makeResponse _ _

theorem serviceOk_internal {e : Machine.Event} {w : World} (he : isInternal e = true)
    (hs : Machine.Step cfg env s.resolver e w) (h : ServiceOk s) :
    ServiceOk { s with resolver := w } := by
  have hfront := front_step he hs
  have hcalled : called w.trace = called s.resolver.trace := by
    rw [called_eq_front, hfront, ← called_eq_front]
  have hresolve : ∀ cb q, .resolve cb q ∈ w.trace ↔ .resolve cb q ∈ s.resolver.trace := by
    intro cb q
    rw [← resolve_mem_front, hfront, resolve_mem_front]
  have hnext : w.nextCallback = s.resolver.nextCallback := congrArg Prod.snd hfront
  constructor
  · dsimp only
    rw [hcalled]
    exact h.ledger
  · exact h.numbers
  · exact fun cb hcb => h.unused cb (hnext ▸ hcb)
  · exact fun cb k hk => (h.waiting cb k hk).mono (List.Subset.refl _) fun q => (hresolve cb q).mpr
  · exact fun cb q hq => h.resolves cb q ((hresolve cb q).mp hq)
  · exact h.log

theorem sound_start (p : QueryProcessor) (sh : Shared) :
    Sound { processor := p, resolver := { shared := sh } } where
  resolver := callersOk_init sh
  service := ⟨ledger_empty, rfl, by simp, by simp, by simp, ⟨by simp, by simp⟩⟩

theorem sound_step {e : Event} (h : Sound s) (hs : Step cfg env s e s') : Sound s' := by
  obtain ⟨fuel, hs⟩ := hs
  cases e with
  | handle now later query client =>
    simp only [apply] at hs
    split_ifs at hs
    obtain rfl := Option.some.inj hs
    exact sound_handle h env now later query client
  | resolver e =>
    simp only [apply] at hs
    split_ifs at hs with hcan
    obtain ⟨w, hw, rfl⟩ := Option.map_eq_some_iff.mp hs
    have he : isInternal e = true := by simp_all
    exact ⟨callersOk_step h.resolver ⟨fuel, hw⟩, serviceOk_internal he ⟨fuel, hw⟩ h.service⟩
  | call now =>
    simp only [apply] at hs
    split at hs
    · simp at hs
    · next cb result rest hcalls =>
      obtain ⟨w, hw, rfl⟩ := Option.map_eq_some_iff.mp hs
      simp only [Machine.apply, hcalls] at hw
      obtain rfl := Option.some.inj hw
      exact sound_call h cfg env hcalls now
  | reload lists | destroy =>
    obtain rfl := Option.some.inj hs
    obtain ⟨hr, h1, h2, h3, h4, h5, h6⟩ := h
    exact ⟨hr, h1, h2, h3, h4, h5, h6⟩

/-! ### What clients are promised -/

def responseTo (n : ℕ) : Fact → Option Message
  | .responded i m => if i = n then some m else none
  | _ => none

/-- The calls of the query's responder. -/
def responses (log : List Fact) (n : ℕ) : List Message := log.filterMap (responseTo n)

/-- The resolution the query waits for is not over. -/
def Unresolved (s : Service) (n : ℕ) : Prop :=
  ∃ cb, .asked n cb ∈ s.log ∧ (cb ∈ s.resolver.calls.map Prod.fst ∨
    ∃ i t, s.resolver.tasks i = some t ∧ cb ∈ callbacks t ∧ wakeUps t = 1)

structure Served (s : Service) : Prop where
  /-- a number stands for one query -/
  numbered : ∀ n a a', .handled n a ∈ s.log → .handled n a' ∈ s.log → a = a'
  atMostOnce : ∀ n, (responses s.log n).length ≤ 1
  exactlyOnce : ∀ n a, .handled n a ∈ s.log → (responses s.log n).length = 1 ∨
    Denied a.processor a.now a.client ∨ .limited n ∈ s.log ∨ Unresolved s n
  /-- once no resolution is left -/
  settled : s.resolver.calls = [] → (∀ i, s.resolver.tasks i = none) → ∀ n a, .handled n a ∈ s.log →
    (responses s.log n).length = 1 ∨ Denied a.processor a.now a.client ∨ .limited n ∈ s.log
  own : ∀ n m, .responded n m ∈ s.log → ∃ a, .handled n a ∈ s.log ∧ Echoes a.query m
  admitted : ∀ cb q, .resolve cb q ∈ s.resolver.trace → ∃ n a, .asked n cb ∈ s.log ∧
    .handled n a ∈ s.log ∧ q = question a.query ∧ Admitted a.processor a.now a.query a.client

theorem length_responses_le : ∀ (log : List Fact) (n : ℕ),
    (responses log n).length ≤ (ended log).count n
  | [], _ => Nat.zero_le _
  | f :: log, n => by
    have ih := length_responses_le log n
    have hcount : ∀ i, (ended log).count n ≤ (i :: ended log).count n := fun i =>
      (List.sublist_cons_self i _).count_le n
    cases f with
    | handled i a => exact ih
    | asked i cb => exact ih
    | dropped i | limited i => exact ih.trans (hcount i)
    | responded i m =>
      by_cases hi : i = n
      · subst hi
        have hfirst : responses (.responded i m :: log) i = m :: responses log i :=
          List.filterMap_cons_some (if_pos rfl)
        have hsame : ended (.responded i m :: log) = i :: ended log := rfl
        rw [hfirst, hsame, List.length_cons, List.count_cons_self]
        exact Nat.succ_le_succ ih
      · have hskip : responses (.responded i m :: log) n = responses log n :=
          List.filterMap_cons_none (if_neg hi)
        rw [hskip]
        exact ih.trans (hcount i)

theorem mem_ended (h : n ∈ ended log) :
    .dropped n ∈ log ∨ .limited n ∈ log ∨ ∃ m, .responded n m ∈ log := by
  obtain ⟨f, hf, hn⟩ := List.mem_filterMap.mp h
  cases f with
  | handled i a | asked i cb => simp [endedOf] at hn
  | dropped i =>
    obtain rfl := Option.some.inj hn
    exact .inl hf
  | limited i =>
    obtain rfl := Option.some.inj hn
    exact .inr (.inl hf)
  | responded i m =>
    obtain rfl := Option.some.inj hn
    exact .inr (.inr ⟨m, hf⟩)

theorem mem_handled (h : .handled n a ∈ log) : (n, a) ∈ handled log :=
  List.mem_filterMap.mpr ⟨_, h, rfl⟩

theorem ServiceOk.numbered (h : ServiceOk s) {a' : Arrival} (ha : .handled n a ∈ s.log)
    (ha' : .handled n a' ∈ s.log) : a = a' := by
  have hnodup : ((handled s.log).map Prod.fst).Nodup := by
    rw [h.numbers]
    exact List.nodup_reverse.mpr List.nodup_range
  exact (Prod.mk.inj (List.inj_on_of_nodup_map hnodup (mem_handled ha) (mem_handled ha') rfl)).2

theorem ServiceOk.handled_lt (h : ServiceOk s) (ha : .handled n a ∈ s.log) : n < s.nextQuery := by
  have hmem : n ∈ (handled s.log).map Prod.fst := List.mem_map.mpr ⟨_, mem_handled ha, rfl⟩
  rw [h.numbers] at hmem
  exact List.mem_range.mp (List.mem_reverse.mp hmem)

/-- A callback that holds a query has not been called. -/
theorem Sound.unresolved (h : Sound s)
    (hn : n ∈ heldQueries (called s.resolver.trace) s.waiting cb) : Unresolved s n := by
  unfold heldQueries at hn
  split_ifs at hn with hcalled
  · simp at hn
  · obtain ⟨k, hk, rfl⟩ : ∃ k, s.waiting cb = some k ∧ k.query = n := by simpa using hn
    obtain ⟨a, q, -, hasked, -, -, hresolve⟩ := h.service.waiting cb k hk
    refine ⟨cb, hasked, ?_⟩
    rcases (Ledger.issued h.resolver.ledger cb).mp (h.resolver.issued.lt hresolve) with
      ⟨i, hi⟩ | hgone
    · cases ht : s.resolver.tasks i with
      | none =>
        rw [show heldBy s.resolver.tasks .idle i = [] from held_none ht] at hi
        exact absurd hi List.not_mem_nil
      | some t =>
        rw [show heldBy s.resolver.tasks .idle i = callbacks t from held_some ht] at hi
        exact .inr ⟨i, t, ht, hi, (h.resolver.wired.tasks i t ht).waits (by simp [loose])⟩
    · exact .inl ((List.mem_append.mp hgone).resolve_right hcalled)

theorem ServiceOk.atMostOnce (h : ServiceOk s) (n : ℕ) : (responses s.log n).length ≤ 1 := by
  have hnodup : (ended s.log).Nodup := Ledger.gone_nodup h.ledger
  exact (length_responses_le s.log n).trans (List.nodup_iff_count_le_one.mp hnodup n)

theorem Sound.exactlyOnce (h : Sound s) (ha : .handled n a ∈ s.log) :
    (responses s.log n).length = 1 ∨ Denied a.processor a.now a.client ∨ .limited n ∈ s.log ∨
      Unresolved s n := by
  rcases (Ledger.issued h.service.ledger n).mp (h.service.handled_lt ha) with ⟨cb, hcb⟩ | hended
  · exact .inr (.inr (.inr (h.unresolved hcb)))
  rcases mem_ended hended with hdropped | hlimited | ⟨m, hm⟩
  · obtain ⟨a', ha', hdenied⟩ := h.service.log.dropped n hdropped
    exact .inr (.inl (h.service.numbered ha' ha ▸ hdenied))
  · exact .inr (.inr (.inl hlimited))
  · have hmem : m ∈ responses s.log n := List.mem_filterMap.mpr ⟨_, hm, if_pos rfl⟩
    have hpos := List.length_pos_of_mem hmem
    have hle := h.service.atMostOnce n
    exact .inl (by omega)

theorem served_of (h : Sound s) : Served s where
  numbered _ _ _ := h.service.numbered
  atMostOnce := h.service.atMostOnce
  exactlyOnce _ _ := h.exactlyOnce
  settled hcalls htasks n a ha := by
    rcases h.exactlyOnce ha with hone | hdenied | hlimited | ⟨cb, -, hcb | ⟨i, t, ht, -⟩⟩
    · exact .inl hone
    · exact .inr (.inl hdenied)
    · exact .inr (.inr hlimited)
    · rw [hcalls] at hcb
      exact absurd hcb List.not_mem_nil
    · rw [htasks i] at ht
      exact absurd ht (by simp)
  own := h.service.log.responded
  admitted cb q hq := by
    obtain ⟨k, hk⟩ := Option.isSome_iff_exists.mp (h.service.resolves cb q hq)
    obtain ⟨a, q', hhandled, hasked, -, hhandle, hq'⟩ := h.service.waiting cb k hk
    obtain rfl := h.resolver.issued.own hq hq'
    obtain ⟨hadmitted, hquestion, -, -⟩ := handle_resolve hhandle
    exact ⟨k.query, a, hasked, hhandled, hquestion, hadmitted⟩

/-- A server without lists or limits, for the clients on its own machine. -/
def localService : Service :=
  { processor := { checks := { rateLimit := .create { qps := 0 } } }, resolver := sampleStart }

def localClient (transport : Transport) : ClientInfo := { addr := .inet 0x7F000001, transport }

end DNSentinel.Server.Serving
