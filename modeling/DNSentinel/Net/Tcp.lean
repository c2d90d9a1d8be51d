import DNSentinel.Lib.Pairs
import DNSentinel.Lib.Runs
import DNSentinel.Policy.Addresses
import DNSentinel.Wire.Builder
import DNSentinel.Wire.Parser

/-! # The TCP listener

`tcp_listener.cpp`, with any number of connections. The handler is called by `process_messages` and may
call a responder before it returns, which leads back into the listener. So what is on the stack is part
of the state (`Frame`): an event is what happens up to the next call of the handler, or up to the end.
While the stack is not empty the handler is running. What the kernel says is part of the event (`Io`,
`Recv`, `Accepted`). -/

namespace DNSentinel.Net.Tcp

open DNSentinel.Types Lib.Runs Lib.Pairs Policy.Addresses Wire.ByteIo Wire.Builder Wire.Parser

def kMaxAcceptsPerWakeup : ℕ := 64
def kReadChunk : ℕ := 16 * 1024
/-- Unanswered queries before reading pauses. -/
def kMaxPipelined : ℕ := 32
/-- Unread response bytes before reading pauses. -/
def kMaxUnsent : ℕ := 256 * 1024

/-- What epoll watches a connection for. -/
structure Interest where
  readable : Bool
  writable : Bool
deriving Repr, DecidableEq

/-- epoll reports what a connection is watched for only, apart from errors. -/
def Interest.covers (i : Interest) (readable writable : Bool) : Bool :=
  (!readable || i.readable) && (!writable || i.writable)

/-- The bytes of the IP address. -/
def ipKey : SockAddr → List UInt8
  | .inet addr => putU32 addr
  | .inet6 addr => addr.1
  | .other => []

structure Connection where
  id : ℕ
  /-- `fd >= 0` -/
  isOpen : Bool := true
  peer : SockAddr
  client : List UInt8
  /-- received bytes not yet forming a whole message -/
  input : List UInt8 := []
  /-- framed responses not yet written -/
  out : List UInt8 := []
  /-- queries handed to the handler, not yet answered -/
  pending : ℕ := 0
  peerDone : Bool := false
  /-- `process_messages()` is on the stack -/
  processing : Bool := false
  interest : Interest := ⟨true, false⟩
  idleTimer : Option ℕ := none
  /-- a call of `modify_fd` has failed (not kept by the listener) -/
  refused : Bool := false

structure TcpListenerConfig where
  maxConnections : ℕ := 200
  maxPerClient : ℕ := 10

inductive Timer where
  | idle (id : ℕ)
  | acceptRetry

/-- What the caller of `process_messages` does next. -/
inductive After where
  /-- the rest of `on_event` -/
  | onEvent (writable : Bool)
  /-- the rest of `respond` -/
  | respond

/-- A call of the handler by `process_messages`. -/
structure Frame where
  connection : ℕ
  used : ℕ
  responder : ℕ
  query : Message
  after : After

/-- What happened to the queries of a connection. -/
inductive Fact where
  | received (id : ℕ) (bytes : List UInt8)
  | handed (r id : ℕ) (query : Message)
  | responded (r id : ℕ)
  | discarded (r id : ℕ)
  | closed (id : ℕ)

structure TcpListener where
  config : TcpListenerConfig := {}
  /-- the listening socket is watched -/
  accepting : Bool := true
  acceptRetry : Option ℕ := none
  nextId : ℕ := 1
  /-- the connections there have been -/
  objects : ℕ → Option Connection := fun _ => none
  /-- `connections_` -/
  connections : List ℕ := []
  perClient : List UInt8 → Option ℕ := fun _ => none
  timers : ℕ → Option Timer := fun _ => none
  nextTimer : ℕ := 1
  stack : List Frame := []
  /-- what the last `epoll_wait` found a connection watched for, until its report is dispatched -/
  reported : ℕ → Option Interest := fun _ => none
  /-- the responders that are alive and have not been called, with their connections -/
  responders : List (ℕ × ℕ) := []
  nextResponder : ℕ := 0
  log : List Fact := []

/-- What the kernel answers: to each `send`, and whether `modify_fd` succeeds. -/
inductive Sent where
  | sent (n : ℕ)
  | again
  | error

structure Io where
  sends : List Sent := []
  modified : Bool := true

inductive Recv where
  | data (bytes : List UInt8)
  | eof
  | again
  | error

/-- `recv` reads one chunk at most, and something. -/
def Recv.fits : Recv → Bool
  | .data bytes => !bytes.isEmpty && decide (bytes.length ≤ kReadChunk)
  | _ => true

/-- What `accept4` returns. `watched`: `add_fd` succeeds. -/
inductive Accepted where
  | connection (peer : SockAddr) (watched : Bool)
  | again
  | exhausted
  | aborted

namespace TcpListener

def put (l : TcpListener) (c : Connection) : TcpListener :=
  { l with objects := Function.update l.objects c.id (some c) }

/-! ### Timers and closing -/

def armIdleTimer (l : TcpListener) (c : Connection) : TcpListener × Connection :=
  ({ l with
      timers := Function.update (without l.timers c.idleTimer) l.nextTimer (some (.idle c.id))
      nextTimer := l.nextTimer + 1 },
    { c with idleTimer := some l.nextTimer })

/-- One connection less from the client. -/
def release (perClient : List UInt8 → Option ℕ) (client : List UInt8) : List UInt8 → Option ℕ :=
  match perClient client with
  | none => perClient
  | some n =>
    -- the count is unsigned
    let left := if n = 0 then 2 ^ 64 - 1 else n - 1
    Function.update perClient client (if left = 0 then none else some left)

def close (l : TcpListener) (c : Connection) : TcpListener × Connection :=
  ({ l with
      timers := without l.timers c.idleTimer
      perClient := release l.perClient c.client
      connections := l.connections.erase c.id
      log := .closed c.id :: l.log },
    { c with isOpen := false, idleTimer := none })

/-- The loop of the destructor. -/
def abandon (l : TcpListener) (id : ℕ) : TcpListener :=
  match l.objects id with
  | none => l
  | some c =>
    { l with timers := without l.timers c.idleTimer, log := .closed id :: l.log }.put
      { c with isOpen := false }

/-- `~TcpListener` -/
def destroy (l : TcpListener) : TcpListener :=
  l.connections.foldl abandon { l with accepting := false, timers := without l.timers l.acceptRetry }

/-! ### Accepting -/

/-- A connection is taken, unless there are too many. -/
def acceptOne (l : TcpListener) (peer : SockAddr) (watched : Bool) : TcpListener :=
  let client := ipKey peer
  if l.config.maxConnections ≤ l.connections.length ∨
      (l.perClient client).any fun n => l.config.maxPerClient ≤ n then l
  else
    let c : Connection := { id := l.nextId, peer, client }
    let l := { l with nextId := l.nextId + 1 }
    if !watched then l
    else
      let l := { l with
        perClient := Function.update l.perClient client (some ((l.perClient client).getD 0 + 1))
        connections := c.id :: l.connections }
      let (l, c) := l.armIdleTimer c
      l.put c

/-- The loop of `on_acceptable`. -/
def onAcceptable : List Accepted → TcpListener → TcpListener
  | [], l => l
  | .again :: _, l => l
  | .exhausted :: _, l =>
    { l with
      accepting := false
      acceptRetry := some l.nextTimer
      timers := Function.update l.timers l.nextTimer (some .acceptRetry)
      nextTimer := l.nextTimer + 1 }
  | .aborted :: rest, l => onAcceptable rest l
  | .connection peer watched :: rest, l => onAcceptable rest (l.acceptOne peer watched)

/-! ### Writing -/

/-- The loop of `flush`: how much was written, `none` if the client is gone. -/
def sendLoop (size : ℕ) : List Sent → ℕ → Option ℕ
  | [], sent => some sent
  | s :: rest, sent =>
    if sent < size then
      match s with
      | .sent n => sendLoop size rest (sent + min n (size - sent))
      | .again => some sent
      | .error => none
    else some sent

def flush (io : Io) (l : TcpListener) (c : Connection) : TcpListener × Connection :=
  match sendLoop c.out.length io.sends 0 with
  | none => l.close c
  | some sent => if 0 < sent then l.armIdleTimer { c with out := c.out.drop sent } else (l, c)

/-- Close the connection once it's done; otherwise watch for what it needs. -/
def update (io : Io) (l : TcpListener) (c : Connection) : TcpListener × Connection :=
  if c.peerDone ∧ c.pending = 0 ∧ c.out = [] then l.close c
  else
    let want : Interest :=
      { readable := !c.peerDone && decide (c.pending < kMaxPipelined) &&
          decide (c.out.length < kMaxUnsent)
        writable := !c.out.isEmpty }
    (l, if want = c.interest then c
      else if io.modified then { c with interest := want }
      else { c with refused := true })

/-! ### Messages -/

/-- The message at the start of `bytes`, if it is all there. -/
def frame : List UInt8 → Option (List UInt8)
  | hi :: lo :: rest =>
    let length := hi.toNat * 256 + lo.toNat
    if rest.length < length then none else some (rest.take length)
  | _ => none

/-- A turn of the loop of `process_messages`. -/
inductive Turn where
  | stop
  | broken
  | query (query : Message) (used : ℕ)

def turn (c : Connection) (used : ℕ) : Turn :=
  if c.isOpen && decide (c.pending < kMaxPipelined) then
    match frame (c.input.drop used) with
    | none => .stop
    | some body =>
      match parse body with
      | .ok query => if query.header.qr then .broken else .query query (used + 2 + body.length)
      | .error _ => .broken
  else .stop

/-- What the caller of `process_messages` does next. -/
def afterwards (io : Io) : After → TcpListener → Connection → TcpListener × Connection
  | .respond, l, c => if c.isOpen then l.update io c else (l, c)
  | .onEvent writable, l, c =>
    let (l, c) := if c.isOpen && writable then l.flush io c else (l, c)
    if c.isOpen then l.update io c else (l, c)

/-- The end of `process_messages`. -/
def leave (io : Io) (l : TcpListener) (c : Connection) (used : ℕ) (after : After) :
    TcpListener × Connection :=
  let c := if c.isOpen then { c with input := c.input.drop used } else c
  afterwards io after l { c with processing := false }

/-- The call of the handler. -/
def hand (l : TcpListener) (c : Connection) (query : Message) (used : ℕ) (after : After) :
    TcpListener × Connection :=
  let (l, c) := l.armIdleTimer { c with pending := c.pending + 1 }
  ({ l with
      stack := ⟨c.id, used, l.nextResponder, query, after⟩ :: l.stack
      responders := (l.nextResponder, c.id) :: l.responders
      nextResponder := l.nextResponder + 1
      log := .handed l.nextResponder c.id query :: l.log }, c)

/-- The loop of `process_messages`, up to the next call of the handler. -/
def loop (io : Io) (l : TcpListener) (c : Connection) (used : ℕ) (after : After) :
    TcpListener × Connection :=
  match turn c used with
  | .stop => l.leave io c used after
  | .broken =>
    let (l, c) := l.close c
    l.leave io c used after
  | .query query used => l.hand c query used after

def processMessages (io : Io) (l : TcpListener) (c : Connection) (after : After) :
    TcpListener × Connection :=
  if c.processing then afterwards io after l c
  else l.loop io { c with processing := true } 0 after

def respond (io : Io) (l : TcpListener) (c : Connection) (response : Message) :
    TcpListener × Connection :=
  if !c.isOpen then (l, c)
  else
    let (l, c) :=
      l.flush io { c with pending := c.pending - 1, out := c.out ++ buildTcp response }
    if !c.isOpen then (l, c) else l.processMessages io c .respond

/-- `read_from`, and the rest of `on_event`. -/
def readFrom (io : Io) (l : TcpListener) (c : Connection) (after : After) :
    Recv → TcpListener × Connection
  | .error =>
    let (l, c) := l.close c
    afterwards io after l c
  | .again => afterwards io after l c
  | .eof => afterwards io after l { c with peerDone := true }
  | .data bytes =>
    { l with log := .received c.id bytes :: l.log }.processMessages io
      { c with input := c.input ++ bytes } after

end TcpListener

/-! ### Runs -/

inductive Event where
  | acceptable (results : List Accepted)
  /-- `epoll_wait` returns -/
  | poll
  /-- its report of a connection is dispatched; `readable`: what `recv` will return -/
  | ready (id : ℕ) (hangup : Bool) (readable : Option Recv) (writable : Bool) (io : Io)
  | timer (tid : ℕ)
  /-- a responder is called -/
  | respond (r : ℕ) (response : Message) (io : Io)
  /-- a responder is destroyed without having been called -/
  | discard (r : ℕ)
  /-- the handler returns -/
  | handled (io : Io)

namespace TcpListener

def onEvent (io : Io) (l : TcpListener) (c : Connection) (hangup : Bool) (readable : Option Recv)
    (writable : Bool) : TcpListener × Connection :=
  if hangup then l.close c
  else
    match readable with
    | some recv => l.readFrom io c (.onEvent writable) recv
    | none => afterwards io (.onEvent writable) l c

/-- The idle timer has fired. -/
def onIdle (l : TcpListener) (c : Connection) : TcpListener × Connection :=
  let c := { c with idleTimer := none }
  if 0 < c.pending then l.armIdleTimer c else l.close c

/-- The connection of a responder that has not been called. -/
def connectionOf (l : TcpListener) (r : ℕ) : Option ℕ :=
  (l.responders.find? fun x => x.1 == r).map Prod.snd

/-- The responder has been called, or destroyed. -/
def spend (l : TcpListener) (r : ℕ) (fact : Fact) : TcpListener :=
  { l with responders := l.responders.filter fun x => x.1 != r, log := fact :: l.log }

/-- Something happens to one connection. -/
def on (l : TcpListener) (id : ℕ) (f : TcpListener → Connection → TcpListener × Connection) :
    Option TcpListener :=
  (l.objects id).map fun c =>
    let (l, c) := f l c
    l.put c

end TcpListener

/-- An event, if it can happen. -/
def apply (l : TcpListener) : Event → Option TcpListener
  | .acceptable results =>
    if l.stack.isEmpty && l.accepting then some (l.onAcceptable (results.take kMaxAcceptsPerWakeup))
    else none
  | .poll =>
    if l.stack.isEmpty then
      some { l with reported := fun id => (l.objects id).map Connection.interest }
    else none
  | .ready id hangup readable writable io =>
    -- other reports may have been dispatched since, so what was watched for then counts, not now
    if l.stack.isEmpty && readable.all Recv.fits &&
        (l.reported id).any (·.covers readable.isSome writable) then
      let l := { l with reported := Function.update l.reported id none }
      if id ∈ l.connections then l.on id fun l c => l.onEvent io c hangup readable writable
      else some l
    else none
  | .timer tid =>
    if !l.stack.isEmpty then none
    else
      match l.timers tid with
      | none => none
      | some .acceptRetry =>
        some { l with timers := Function.update l.timers tid none, acceptRetry := none, accepting := true }
      | some (.idle id) =>
        let l := { l with timers := Function.update l.timers tid none }
        if id ∈ l.connections then l.on id TcpListener.onIdle else some l
  | .respond r response io =>
    match l.connectionOf r with
    | none => none
    | some id => (l.spend r (.responded r id)).on id fun l c => l.respond io c response
  | .discard r => (l.connectionOf r).map fun id => l.spend r (.discarded r id)
  | .handled io =>
    match l.stack with
    | [] => none
    | f :: rest => { l with stack := rest }.on f.connection fun l c => l.loop io c f.used f.after

/-- **One event of a run.** -/
def Step (l : TcpListener) (e : Event) (l' : TcpListener) : Prop := apply l e = some l'

end DNSentinel.Net.Tcp
