import DNSentinel.Resolver.Core
import DNSentinel.Lib.Pairs

/-! # The resolver on its event loop

The state of `RecursiveResolver::Impl` together with the timers and upstream queries it has pending,
and the events that can happen to it: a call of `resolve()`, a timer that is due, an upstream query
that completes, a callback that `finish()` calls, the passage of time, other users of the cache.

`finish()` calls back last, so the callbacks it has to call are queued (`calls`) and called one by
one by `Event.call`, before the loop goes on; `resolve()` may be called at any time, also from a
callback. `trace` records what happened, newest first.

Times are in nanoseconds. Of the upstream client only its contract is modelled: a query in flight
completes at most once, with a message that matches it or with an error. -/

namespace DNSentinel.Resolver.Machine

open DNSentinel.Types Lib.Pairs Store.Model Selection Data Resolver.Core

def kMillisecond : ℕ := 1000000

/-! ### State -/

/-- Questions up to `==`. -/
abbrev QuestionKey := List Label × UInt16 × UInt16

def questionKey (q : Question) : QuestionKey := (q.qname.labels, q.qtype, q.qclass)

inductive TimerAction where
  | start (id : ℕ)
  | deadline (id : ℕ)
deriving Repr, DecidableEq

structure Timer where
  due : ℕ
  action : TimerAction

/-- An upstream query in flight. -/
structure Pending where
  task : ℕ
  server : Address
  transport : UpstreamTransport
  query : Message
  question : Question
  matchCase : Bool
  txid : UInt16
  timeoutAt : ℕ

/-- What is recorded of a run. -/
inductive Obs where
  /-- `resolve()` was called -/
  | resolve (cb : ℕ) (q : Question)
  /-- the start timer, an upstream query or the sub-query of a task completed -/
  | wake (id budget : ℕ)
  /-- a query was sent during the given zone visit -/
  | sent (id visit budget : ℕ) (server : Address) (transport : UpstreamTransport) (q : Question)
  /-- the server answered a query of the given zone visit in another letter case -/
  | mismatch (id visit : ℕ) (server : Address)
  /-- an upstream response was accepted for a query about `q` -/
  | accepted (id : ℕ) (q : Question) (response : Message)
  /-- a sub-query was started during the given zone visit of the parent -/
  | spawned (parent visit child : ℕ)
  | finished (id : ℕ) (t : Task) (result : Outcome)
  | called (cb : ℕ) (result : Outcome)
  | alert (q : Question) (server : Address) (replies : UInt32)

structure World where
  shared : Shared
  nextTaskId : ℕ := 1
  tasks : ℕ → Option Task := fun _ => none
  inFlight : QuestionKey → Option ℕ := fun _ => none
  /-- `Budget::queries` -/
  budgets : ℕ → UInt32 := fun _ => 0
  nextTimer : ℕ := 1
  timers : ℕ → Option Timer := fun _ => none
  nextQuery : ℕ := 1
  pending : ℕ → Option Pending := fun _ => none
  calls : List (ℕ × Outcome) := []
  nextCallback : ℕ := 0
  trace : List Obs := []

/-- The resolver with an empty cache. -/
def start (cfg : Config) (sizes : Sizes) (cacheConfig : CacheConfig) : World :=
  { shared :=
    { cache := Cache.create sizes cacheConfig
      selection := { exploreOneIn := cfg.exploreOneIn } } }

namespace World

def log (w : World) (o : Obs) : World := { w with trace := o :: w.trace }

def putTask (w : World) (id : ℕ) (t : Task) : World :=
  { w with tasks := Function.update w.tasks id (some t) }

def addTimer (w : World) (delay : ℕ) (action : TimerAction) : World × ℕ :=
  ({ w with
      timers := Function.update w.timers w.nextTimer (some ⟨w.shared.now + delay, action⟩)
      nextTimer := w.nextTimer + 1 }, w.nextTimer)

end World

variable (cfg : Config) (env : Random)

/-! ### Task lifecycle -/

/-- Create a task; it starts on the next loop iteration. -/
def spawn (w : World) (q : Question) (budget : ℕ) (ancestry : List Question) (done : Done) :
    World × ℕ :=
  let id := w.nextTaskId
  let (w, timer) := w.addTimer 0 (.start id)
  ({ w with nextTaskId := id + 1 }.putTask id
    { question := q, qname := q.qname, ancestry, budget, started := w.shared.now, done
      startTimer := some timer }, id)

/-- A new client task, with a budget of its own and a deadline. -/
def spawnClient (w : World) (q : Question) (cb : ℕ) : World :=
  let (w, id) := spawn w q w.nextTaskId [] (.callback cb)
  let w := { w with
    inFlight := Function.update w.inFlight (questionKey q) (some id)
    budgets := Function.update w.budgets id 0 }
  let (w, timer) := w.addTimer (cfg.overallDeadlineMs.toNat * kMillisecond) (.deadline id)
  match w.tasks id with
  | some t => w.putTask id { t with client := true, deadline := some timer }
  | none => w

def resolveClient (w : World) (q : Question) : World :=
  let cb := w.nextCallback
  let w := { w with nextCallback := cb + 1 }.log (.resolve cb q)
  match w.inFlight (questionKey q) with
  | some id =>
    match w.tasks id with
    | some t => w.putTask id { t with joiners := t.joiners ++ [⟨q, w.shared.now, cb⟩] }
    | none => spawnClient cfg w q cb
  | none => spawnClient cfg w q cb

/-- `tasks.erase` and what `release` does besides cancelling the sub-query. -/
def remove (w : World) (id : ℕ) (t : Task) : World :=
  { w with
    tasks := Function.update w.tasks id none
    inFlight :=
      if t.client ∧ w.inFlight (questionKey t.question) = some id then
        Function.update w.inFlight (questionKey t.question) none else w.inFlight
    pending := without w.pending t.upstream
    timers := without (without w.timers t.startTimer) t.deadline }

/-- Remove a task and everything it has in flight, without calling back. Sub-queries have greater
ids than their parents, which bounds the recursion. -/
def cancel : ℕ → World → ℕ → World
  | 0, w, _ => w
  | fuel + 1, w, id =>
    match w.tasks id with
    | none => w
    | some t =>
      match t.child with
      | none => remove w id t
      | some child => cancel fuel (remove w id t) child

/-- A task that is finished or cancelled, with its sub-queries. -/
def release (w : World) (id : ℕ) : World := cancel w.nextTaskId w id

/-! ### Last calls -/

/-- The loop of `send_query` that doubles the wait for each timeout in this zone. -/
def doubled (most : ℕ) : ℕ → ℕ → ℕ
  | 0, timeout => timeout
  | n + 1, timeout => if timeout < most then doubled most n (timeout * 2) else timeout

/-- How long `send_query` waits, in milliseconds. -/
def queryTimeout (sh : Shared) (t : Task) (address : Address) : ℕ :=
  let most := cfg.maxQueryTimeoutMs.toNat
  let timeout := sh.selection.timeout sh.now address cfg.queryTimeoutMs.toNat
  min (doubled most t.timeouts.toNat timeout) most

/-- `send_query`; an outcome is a last call of `finish`. -/
def sendQuery (w : World) (id : ℕ) (t : Task) (address : Address) (transport : UpstreamTransport) :
    World × Option Outcome :=
  if cfg.maxUpstreamQueries ≤ w.budgets t.budget then
    (w.putTask id t, some (.error .maxQueriesExceeded))
  else
    let overTcp := transport == .tcp
    let sent0x20 := cfg.use0x20 && !overTcp && !w.shared.no0x20.contains address
    let t := { t with
      tried := if overTcp then t.tried else t.tried ++ [address]
      asked := address, overTcp, sent0x20, sentAt := w.shared.now
      upstream := some w.nextQuery }
    let (name, draws) :=
      if sent0x20 then randomizeCase env w.shared.draws t.qname else (t.qname, w.shared.draws)
    let txid := UInt16.ofNat (env draws)
    let question : Question := ⟨name, t.question.qtype, kClassIN⟩
    let query : Message :=
      { header := { id := txid }, questions := [question]
        edns := some { udpPayloadSize := cfg.ednsBuffer } }
    let w := { w with
      shared := { w.shared with draws := draws + 1 }
      budgets := Function.update w.budgets t.budget (w.budgets t.budget + 1)
      nextQuery := w.nextQuery + 1
      pending := Function.update w.pending w.nextQuery (some
        { task := id, server := address, transport, query, question, matchCase := sent0x20, txid
          timeoutAt := w.shared.now + queryTimeout cfg w.shared t address * kMillisecond }) }
    ((w.putTask id t).log (.sent id t.visits t.budget address transport question), none)

/-- Start the sub-query a task waits for. -/
def spawnChild (w : World) (id : ℕ) (t : Task) (q : Question) (ancestry : List Question) : World :=
  let (w, child) := spawn w q t.budget ancestry (.onChildDone id)
  (w.putTask id { t with child := some child }).log (.spawned id t.visits child)

/-- Do the last call of a step. -/
def perform (w : World) (id : ℕ) (turn : Turn) : World × Option Outcome :=
  let (sh, t, next) := turn
  let w := { w with shared := sh }
  match next with
  | .finish result => (w.putTask id t, some result)
  | .sendQuery address transport => sendQuery cfg env w id t address transport
  | .spawn q ancestry => (spawnChild w id t q ancestry, none)

/-- `finish` fills in what the resolution took. -/
def complete (w : World) (t : Task) (result : Outcome) : Outcome :=
  result.map fun r =>
    { r with
      upstreamQueriesUsed := w.budgets t.budget
      latencyUs := elapsedUs t.started w.shared.now }

/-- What a client that joined is called back with. -/
def joined (now : ℕ) (result : Outcome) (waiter : Waiter) : ℕ × Outcome :=
  (waiter.done, result.map fun r =>
    { r with
      response := { r.response with questions := [waiter.question] }
      upstreamQueriesUsed := 0
      latencyUs := elapsedUs waiter.asked now
      coalesced := true })

/-- The parent of a finished sub-query goes on. -/
def wakeParent (w : World) (parent : ℕ) (result : Outcome) : World × Option Outcome :=
  match w.tasks parent with
  | none => (w, none)
  | some t =>
    perform cfg env (w.log (.wake parent t.budget)) parent
      (onChildDone cfg env w.shared { t with child := none } result)

/-- `finish`. A finished sub-query lets its parent go on, which may finish the parent, and so on. -/
def finish : ℕ → World → ℕ → Outcome → World
  | 0, w, _, _ => w
  | fuel + 1, w, id, result =>
    match w.tasks id with
    | none => w
    | some t =>
      let w := release w id
      let result := complete w t result
      let calls := t.joiners.map (joined w.shared.now result)
      let w := w.log (.finished id t result)
      match t.done with
      | .callback cb => { w with calls := w.calls ++ (cb, result) :: calls }
      | .onChildDone parent =>
        let w := match wakeParent cfg env w parent result with
          | (w, none) => w
          | (w, some result) => finish fuel w parent result
        { w with calls := w.calls ++ calls }

/-- Run a step of a task to its end. -/
def runTurn (w : World) (id : ℕ) (turn : Turn) : World :=
  match perform cfg env w id turn with
  | (w, none) => w
  | (w, some result) => finish cfg env w.nextTaskId w id result

/-! ### Events -/

inductive Match where
  | no
  | wrongCase
  | yes
deriving Repr, DecidableEq

/-- `match`: is `msg` the response to the query? -/
def matchResponse (msg : Message) (p : Pending) : Match :=
  match msg.questions with
  | [q] =>
    if !msg.header.qr || msg.header.id != p.txid || !(q == p.question) then .no
    else if p.matchCase && !sameCase q.qname p.question.qname then .wrongCase
    else .yes
  | _ => .no

/-- The ways a query in flight can complete. -/
def allowed (now : ℕ) (p : Pending) : Except UpstreamError Message → Bool
  | .ok msg => matchResponse msg p == .yes
  | .error .timeout => decide (p.timeoutAt ≤ now)
  | .error .networkError => true
  | .error .caseMismatch => p.matchCase && decide (p.timeoutAt ≤ now)
  | .error .spoofSuspected => p.transport == .udp && cfg.spoofTcpThreshold != 0

inductive Event where
  | resolve (q : Question)
  | timer (tid : ℕ)
  | upstream (qid : ℕ) (result : Except UpstreamError Message)
  | call
  | wait (ns : ℕ)
  | evict (key : CacheKey)
  | flush

/-- A timer fires: a task starts, or its deadline has passed. -/
def onTimer (fuel : ℕ) (w : World) : TimerAction → Option World
  | .start id =>
    match w.tasks id with
    | none => some w
    | some t =>
      (step cfg env fuel w.shared { t with startTimer := none }).map
        (runTurn cfg env (w.log (.wake id t.budget)) id)
  | .deadline id =>
    match w.tasks id with
    | none => some w
    | some t =>
      some (finish cfg env w.nextTaskId (w.putTask id { t with deadline := none }) id
        (.error .timeout))

/-- What is recorded of a completed query. -/
def completion (t : Task) (p : Pending) : Except UpstreamError Message → List Obs
  | .ok response => [.accepted p.task p.question response]
  | .error .spoofSuspected => [.alert t.target t.asked cfg.spoofTcpThreshold]
  | .error .caseMismatch => [.mismatch p.task t.visits p.server]
  | .error _ => []

/-- An upstream query completes. -/
def onUpstream (fuel : ℕ) (w : World) (p : Pending) (result : Except UpstreamError Message) :
    Option World :=
  match w.tasks p.task with
  | none => some w
  | some t =>
    let w' := { w with trace := completion cfg t p result ++ .wake p.task t.budget :: w.trace }
    (onResponse cfg env fuel w.shared { t with upstream := none } result).map
      (runTurn cfg env w' p.task)

/-- An event, if it can happen: `none` if it cannot, or if `fuel` runs out. -/
def apply (fuel : ℕ) (w : World) : Event → Option World
  | .resolve q => some (resolveClient cfg w q)
  | .timer tid =>
    match w.calls, w.timers tid with
    | [], some timer =>
      if timer.due ≤ w.shared.now then
        onTimer cfg env fuel { w with timers := without w.timers (some tid) } timer.action
      else none
    | _, _ => none
  | .upstream qid result =>
    match w.calls, w.pending qid with
    | [], some p =>
      if allowed cfg w.shared.now p result then
        onUpstream cfg env fuel { w with pending := without w.pending (some qid) } p result
      else none
    | _, _ => none
  | .call =>
    match w.calls with
    | [] => none
    | (cb, result) :: rest => some ({ w with calls := rest }.log (.called cb result))
  | .wait ns =>
    match w.calls with
    | [] => some { w with shared := { w.shared with now := w.shared.now + ns } }
    | _ => none
  | .evict key => some { w with shared := { w.shared with cache := w.shared.cache.evict key } }
  | .flush => some { w with shared := { w.shared with cache := w.shared.cache.flush } }

/-- **One event of a run.** -/
def Step (w : World) (e : Event) (w' : World) : Prop := ∃ fuel, apply cfg env fuel w e = some w'

end DNSentinel.Resolver.Machine
