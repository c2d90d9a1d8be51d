import DNSentinel.Policy.Addresses
import Mathlib.Algebra.Order.Ring.Unbundled.Rat

/-! # Rate limits

`rate_limiter.cpp`, a token bucket per client, and `rrl.cpp`, a cap on identical responses per client
network. Times are in nanoseconds; a `double` is a rational. Tables are lists of pairs, and the first
match counts. Counters that only statistics read are left out. -/

namespace DNSentinel.Policy.RateLimits

open DNSentinel.Types Addresses

def kSecond : ℕ := 1000000000

/-! ### Queries per client -/

structure RateLimitConfig where
  qps : UInt32 := 100
  burst : UInt32 := 200
  action : DenyAction := .drop
  exempt : List Subnet := []
  maxClients : ℕ := 65536

structure Bucket where
  tokens : ℚ
  last : ℕ

structure RateLimiter where
  config : RateLimitConfig
  buckets : List (IpAddress × Bucket) := []
  /-- the bucket shared once the table is full, once it is used -/
  overflow : Option Bucket := none
  lastSweep : ℕ := 0

namespace RateLimiter

/-- A bucket must hold at least one query. -/
def create (config : RateLimitConfig) : RateLimiter :=
  { config := { config with burst := max config.burst 1 } }

def enabled (l : RateLimiter) : Bool := decide (0 < l.config.qps)

/-- The tokens of a bucket at `now`, were it bottomless. -/
def refilled (l : RateLimiter) (b : Bucket) (now : ℕ) : ℚ :=
  b.tokens + ((now - b.last : ℕ) : ℚ) / kSecond * l.config.qps.toNat

def take (l : RateLimiter) (b : Bucket) (now : ℕ) : Bool × Bucket :=
  let tokens := min (l.config.burst.toNat : ℚ) (l.refilled b now)
  if tokens < 1 then (false, ⟨tokens, now⟩) else (true, ⟨tokens - 1, now⟩)

/-- A bucket that has refilled is no different from a new one. -/
def forgetIdle (l : RateLimiter) (now : ℕ) : RateLimiter :=
  { l with
    buckets := l.buckets.filter fun e =>
      !decide ((l.config.burst.toNat : ℚ) ≤ l.refilled e.2 now)
    lastSweep := now }

def setBucket (l : RateLimiter) (ip : IpAddress) (b : Bucket) : RateLimiter :=
  { l with buckets := l.buckets.map fun e => if e.1 = ip then (ip, b) else e }

def allow (l : RateLimiter) (client : SockAddr) (now : ℕ) : Bool × RateLimiter :=
  if !l.enabled then (true, l)
  else
    match ipAddress client with
    | none => (true, l)
    | some ip =>
      if l.config.exempt.any fun s => s.contains client then (true, l)
      else
        match l.buckets.lookup ip with
        | some b =>
          let (ok, b) := l.take b now
          (ok, l.setBucket ip b)
        | none =>
          let full (l : RateLimiter) := decide (l.config.maxClients ≤ l.buckets.length)
          let fresh : Bucket := ⟨l.config.burst.toNat, now⟩
          let l := if full l && decide (l.lastSweep + kSecond ≤ now) then l.forgetIdle now else l
          if full l then
            let (ok, b) := l.take (l.overflow.getD fresh) now
            (ok, { l with overflow := some b })
          else
            let (ok, b) := l.take fresh now
            (ok, { l with buckets := (ip, b) :: l.buckets })

theorem config_allow (l : RateLimiter) (client : SockAddr) (now : ℕ) :
    (l.allow client now).2.config = l.config := by
  unfold allow
  dsimp only
  cases ipAddress client with
  | none => split_ifs <;> rfl
  | some ip =>
    dsimp only
    cases l.buckets.lookup ip <;> split_ifs <;> rfl

end RateLimiter

/-! ### Identical responses -/

structure RrlConfig where
  responsesPerSecond : UInt32 := 0
  windowSeconds : UInt32 := 1
  slip : UInt32 := 2
  ipv4Prefix : UInt8 := 24
  ipv6Prefix : UInt8 := 56
  exempt : List Subnet := []
  maxEntries : ℕ := 65536

inductive RrlVerdict where
  | send
  | drop
  | slip
deriving Repr, DecidableEq

structure RrlEntry where
  windowStart : ℕ
  sent : UInt32 := 0
  excess : UInt32 := 0

/-- What identical responses share: the client's network, the rcode, the type and the name. -/
structure Fingerprint where
  network : IpAddress
  rcode : UInt8
  qtype : UInt16
  name : List UInt8
deriving DecidableEq

structure ResponseRateLimiter where
  config : RrlConfig := {}
  entries : List (Fingerprint × RrlEntry) := []
  overflow : Option RrlEntry := none
  lastSweep : ℕ := 0

/-- The name a response is counted under: the zone for negative answers. -/
def countedName (response : Message) : List UInt8 :=
  let negative := response.header.rcode == RCode.NXDomain ||
    (response.header.rcode == RCode.NoError && response.answers.isEmpty)
  let zone := if negative then response.authority.find? fun r => r.type == RRType.SOA else none
  match zone, response.questions with
  | some r, _ => r.name.toString
  | none, q :: _ => q.qname.toString
  | none, [] => []

namespace ResponseRateLimiter

def enabled (l : ResponseRateLimiter) : Bool := decide (0 < l.config.responsesPerSecond)

/-- `window_`, in seconds. -/
def window (l : ResponseRateLimiter) : ℕ := (max l.config.windowSeconds 1).toNat

/-- The window of an entry is over. -/
def expired (l : ResponseRateLimiter) (e : RrlEntry) (now : ℕ) : Bool :=
  decide (e.windowStart + l.window * kSecond ≤ now)

def count (l : ResponseRateLimiter) (e : RrlEntry) (now : ℕ) : RrlVerdict × RrlEntry :=
  let e := if l.expired e now then ⟨now, 0, 0⟩ else e
  let cap := l.config.responsesPerSecond.toNat * l.window
  let e := { e with sent := e.sent + 1 }
  if e.sent.toNat ≤ cap then (.send, e)
  else
    let e := { e with excess := e.excess + 1 }
    (if 0 < l.config.slip ∧ e.excess % l.config.slip = 0 then .slip else .drop, e)

def forgetExpired (l : ResponseRateLimiter) (now : ℕ) : ResponseRateLimiter :=
  { l with entries := l.entries.filter fun e => !l.expired e.2 now, lastSweep := now }

def setEntry (l : ResponseRateLimiter) (key : Fingerprint) (e : RrlEntry) : ResponseRateLimiter :=
  { l with entries := l.entries.map fun x => if x.1 = key then (key, e) else x }

def fingerprint (l : ResponseRateLimiter) (ip : IpAddress) (response : Message) : Fingerprint where
  network := ip.network (if ip.family = .inet then l.config.ipv4Prefix else l.config.ipv6Prefix)
  rcode := response.header.rcode
  qtype := (response.questions.head?.map Question.qtype).getD 0
  name := countedName response

def check (l : ResponseRateLimiter) (client : SockAddr) (response : Message) (now : ℕ) :
    RrlVerdict × ResponseRateLimiter :=
  if !l.enabled then (.send, l)
  else
    match ipAddress client with
    | none => (.send, l)
    | some ip =>
      if l.config.exempt.any fun s => s.contains client then (.send, l)
      else
        let key := l.fingerprint ip response
        match l.entries.lookup key with
        | some e =>
          let (verdict, e) := l.count e now
          (verdict, l.setEntry key e)
        | none =>
          let full (l : ResponseRateLimiter) := decide (l.config.maxEntries ≤ l.entries.length)
          let l := if full l && decide (l.lastSweep + kSecond ≤ now) then l.forgetExpired now else l
          if full l then
            let (verdict, e) := l.count (l.overflow.getD ⟨now, 0, 0⟩) now
            (verdict, { l with overflow := some e })
          else
            let (verdict, e) := l.count ⟨now, 0, 0⟩ now
            (verdict, { l with entries := (key, e) :: l.entries })

end ResponseRateLimiter

/-- What a slip sends: no records, so that the client asks again over TCP. -/
def truncated (response : Message) : Message :=
  { header := { response.header with tc := true }
    questions := response.questions
    edns := response.edns }

end DNSentinel.Policy.RateLimits
