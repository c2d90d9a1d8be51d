import DNSentinel.Lib.IndexedLru
import DNSentinel.Wire.ByteIo

/-! # The cache

`cache.cpp`: shards, each a recency list with an index, a byte count and a budget. Time is in
nanoseconds. What the clock would return is an argument; the locks have no counterpart. The `sizeof`
values of the accounting are a parameter. `is_stale` and `needs_prefetch` of a lookup are never set
and left out. -/

namespace DNSentinel.Store.Model

open DNSentinel.Types Lib.IndexedLru
open Wire.ByteIo (sizeSub)

/-- Nanoseconds in a second. -/
def kSecond : ℕ := 1000000000

structure CacheKey where
  name : Name
  qtype : UInt16 := 0
  qclass : UInt16 := 1

/-- Names compare without case. -/
instance : BEq CacheKey := ⟨fun a b => a.name == b.name && a.qtype == b.qtype && a.qclass == b.qclass⟩

theorem CacheKey.beq_iff {a b : CacheKey} : (a == b) = true ↔
    a.name.labels = b.name.labels ∧ a.qtype = b.qtype ∧ a.qclass = b.qclass := by
  show (a.name == b.name && a.qtype == b.qtype && a.qclass == b.qclass) = true ↔ _
  simp only [Bool.and_eq_true, Name.beq_iff, beq_iff_eq, and_assoc]

instance : EquivBEq CacheKey where
  rfl := CacheKey.beq_iff.mpr ⟨rfl, rfl, rfl⟩
  symm h := by
    obtain ⟨h1, h2, h3⟩ := CacheKey.beq_iff.mp h
    exact CacheKey.beq_iff.mpr ⟨h1.symm, h2.symm, h3.symm⟩
  trans h h' := by
    obtain ⟨h1, h2, h3⟩ := CacheKey.beq_iff.mp h
    obtain ⟨h1', h2', h3'⟩ := CacheKey.beq_iff.mp h'
    exact CacheKey.beq_iff.mpr ⟨h1.trans h1', h2.trans h2', h3.trans h3'⟩

structure CacheEntry where
  records : List RR
  trust : TrustRank := .additional
  expiresAt : ℕ
  insertedAt : ℕ
  hitCount : UInt64 := 0
  isNegative : Bool := false

structure CacheConfig where
  maxMemoryBytes : ℕ := 256 * 1024 * 1024
  numShards : ℕ := 16
  minTtl : UInt32 := 0
  maxTtl : UInt32 := 86400

/-- The `sizeof` of the types the accounting counts. -/
structure Sizes where
  string : ℕ
  cacheKey : ℕ
  cacheEntry : ℕ
  rr : ℕ

/-! ### Hashing -/

/-- `Name::hash`: FNV-1a over the length-prefixed canonical labels. -/
def nameHash (n : Name) : UInt64 :=
  let mix (h : UInt64) (b : UInt8) : UInt64 := (h ^^^ b.toUInt64) * 1099511628211
  n.labels.foldl (fun h label => label.foldl mix (mix h (UInt8.ofNat label.length)))
    14695981039346656037

/-- `KeyHash`. -/
def keyHash (k : CacheKey) : UInt64 :=
  let h := nameHash k.name
  let t : UInt64 := (k.qtype.toUInt64 <<< 16) ||| k.qclass.toUInt64
  h ^^^ (t + (0x9e3779b97f4a7c15 : UInt64) + (h <<< (6 : UInt64)) + (h >>> (2 : UInt64)))

/-! ### Accounting -/

def kNodeOverhead : ℕ := 64

def nameBytes (sz : Sizes) (n : Name) : ℕ := 2 * (n.labels.length * sz.string + n.wireLength)

def rdataBytes (sz : Sizes) : RData → ℕ
  | .a _ | .aaaa _ => 0
  | .ns n | .cname n | .ptr n | .mx _ n => nameBytes sz n
  | .soa m r .. => nameBytes sz m + nameBytes sz r
  | .txt strings => strings.length * sz.string + (strings.map List.length).sum
  | .raw data => data.length

def entryBytes (sz : Sizes) (key : CacheKey) (records : List RR) : ℕ :=
  kNodeOverhead + sz.cacheKey + sz.cacheEntry + nameBytes sz key.name +
    (records.map fun r => sz.rr + nameBytes sz r.name + rdataBytes sz r.rdata).sum

/-! ### Shards -/

/-- What a list node holds besides its key. -/
structure Cell where
  entry : CacheEntry
  bytes : ℕ

structure Shard where
  lru : Lru CacheKey Cell := .empty
  bytes : ℕ := 0

namespace Shard

def erase (s : Shard) (n : Slot CacheKey Cell) : Shard :=
  { lru := s.lru.erase n.id, bytes := sizeSub s.bytes n.val.bytes }

/-- The loop of `insert` that evicts from the back; at most one turn per node. -/
def evictBack (budget : ℕ) : ℕ → Shard → Shard
  | 0, s => s
  | fuel + 1, s =>
    if budget < s.bytes ∧ 1 < s.lru.slots.length then
      match s.lru.slots.getLast? with
      | some n => evictBack budget fuel (s.erase n)
      | none => s
    else s

end Shard

/-- `Cache`, with the `sizeof` values of the platform. -/
structure Cache where
  sizes : Sizes
  config : CacheConfig
  shards : List Shard
  hits : UInt64 := 0
  misses : UInt64 := 0

namespace Cache

/-- The constructor. -/
def create (sizes : Sizes) (config : CacheConfig) : Cache :=
  { sizes, config, shards := List.replicate (max config.numShards 1) {} }

/-- `shard_budget_`. -/
def shardBudget (c : Cache) : ℕ := c.config.maxMemoryBytes / max c.config.numShards 1

def shardFor (c : Cache) (key : CacheKey) : ℕ := (keyHash key >>> 32).toNat % c.shards.length

def shard (c : Cache) (key : CacheKey) : Shard := c.shards.getD (c.shardFor key) {}

def setShard (c : Cache) (key : CacheKey) (s : Shard) : Cache :=
  { c with shards := c.shards.set (c.shardFor key) s }

/-- A hit, as it is returned: every TTL is the time remaining in whole seconds. -/
def served (now : ℕ) (e : CacheEntry) : CacheEntry :=
  { e with records := e.records.map fun r =>
      { r with ttl := UInt32.ofNat ((e.expiresAt - now) / kSecond) } }

def lookup (c : Cache) (now : ℕ) (key : CacheKey) : Option CacheEntry × Cache :=
  let s := c.shard key
  let missed := { c with misses := c.misses + 1 }
  match s.lru.find? key with
  | none => (none, missed)
  | some n =>
    -- expired entries stay until evicted
    if n.val.entry.expiresAt ≤ now then (none, missed)
    else
      let entry := { n.val.entry with hitCount := n.val.entry.hitCount + 1 }
      let s := { s with lru := (s.lru.toFront n.id).setVal n.id { n.val with entry } }
      (some (served now entry), { c.setShard key s with hits := c.hits + 1 })

/-- The TTL after the configured bounds. -/
def effectiveTtl (c : Cache) (ttl : UInt32) : UInt32 := min (max ttl c.config.minTtl) c.config.maxTtl

/-- The entry an `insert` makes. -/
def newEntry (c : Cache) (now : ℕ) (records : List RR) (trust : TrustRank) (ttl : UInt32)
    (negative : Bool) : CacheEntry :=
  { records, trust, expiresAt := now + (c.effectiveTtl ttl).toNat * kSecond, insertedAt := now
    isNegative := negative }

def insert (c : Cache) (now : ℕ) (key : CacheKey) (records : List RR) (trust : TrustRank)
    (ttl : UInt32) (negative : Bool := false) : Cache :=
  if c.effectiveTtl ttl = 0 then c
  else
    let entry := c.newEntry now records trust ttl negative
    let bytes := entryBytes c.sizes key records
    let s := c.shard key
    let evict (s : Shard) : Cache :=
      c.setShard key (s.evictBack c.shardBudget s.lru.slots.length)
    match h : s.lru.find? key with
    | some n =>
      -- RFC 2181 §5.4.1: live data is never replaced by less trusted data
      if now < n.val.entry.expiresAt ∧ trust.toNat < n.val.entry.trust.toNat then c
      else if c.shardBudget < bytes then c.setShard key (s.erase n)
      else
        evict { lru := (s.lru.setVal n.id { entry, bytes }).toFront n.id
                bytes := sizeSub s.bytes n.val.bytes + bytes }
    | none =>
      if c.shardBudget < bytes then c
      else evict { lru := s.lru.push key { entry, bytes } h, bytes := s.bytes + bytes }

def evict (c : Cache) (key : CacheKey) : Cache :=
  let s := c.shard key
  match s.lru.find? key with
  | some n => c.setShard key (s.erase n)
  | none => c

def flush (c : Cache) : Cache := { c with shards := c.shards.map fun _ => {} }

def size (c : Cache) : ℕ := (c.shards.map fun s => s.lru.slots.length).sum

def memoryUsed (c : Cache) : ℕ := (c.shards.map Shard.bytes).sum

end Cache

end DNSentinel.Store.Model
