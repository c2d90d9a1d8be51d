import DNSentinel.Store.Calls
import DNSentinel.Wire.SharedCase

/-! # Caches with names in another letter case

Two caches that hold the same entries, in the same order and of the same size, with the names in them
alike but for suffixes of `asked`. No call tells one from the other: keys are compared, hashed and
counted without regard to case. -/

namespace DNSentinel.Store.SharedCase

open DNSentinel.Types Lib Lib.IndexedLru Model Calls Wire.SharedCase
open Wire.ByteIo (sizeSub)
open List (Forall₂)

structure EntryAlike (asked : List Label) (e e' : CacheEntry) : Prop where
  records : RrsAlike asked e.records e'.records
  trust : e.trust = e'.trust
  expiresAt : e.expiresAt = e'.expiresAt
  isNegative : e.isNegative = e'.isNegative

structure CellAlike (asked : List Label) (x x' : Cell) : Prop where
  entry : EntryAlike asked x.entry x'.entry
  bytes : x.bytes = x'.bytes

structure ShardAlike (asked : List Label) (s s' : Shard) : Prop where
  lru : Lru.Alike (CellAlike asked) s.lru s'.lru
  bytes : s.bytes = s'.bytes

structure CacheAlike (asked : List Label) (c c' : Cache) : Prop where
  sizes : c.sizes = c'.sizes
  config : c.config = c'.config
  shards : Forall₂ (ShardAlike asked) c.shards c'.shards

variable {asked : List Label} {c c' : Cache} {s s' : Shard} {key key' : CacheKey} {now : ℕ}
  {records records' : List RR} {trust : TrustRank} {ttl : UInt32} {negative : Bool}

theorem EntryAlike.refl (e : CacheEntry) : EntryAlike asked e e := ⟨rrsAlike_refl _, rfl, rfl, rfl⟩

theorem ShardAlike.refl (s : Shard) : ShardAlike asked s s :=
  ⟨.refl (fun _ => ⟨.refl _, rfl⟩) _, rfl⟩

theorem CacheAlike.refl (c : Cache) : CacheAlike asked c c :=
  ⟨rfl, rfl, Aligned.self ShardAlike.refl _⟩

/-! ### Shards -/

theorem CacheAlike.shardFor (h : CacheAlike asked c c') (hkey : (key == key') = true) :
    c.shardFor key = c'.shardFor key' := by
  rw [shardFor_congr hkey]
  unfold Cache.shardFor
  rw [h.shards.length_eq]

theorem CacheAlike.shard (h : CacheAlike asked c c') (hkey : (key == key') = true) :
    ShardAlike asked (c.shard key) (c'.shard key') := by
  unfold Cache.shard
  rw [h.shardFor hkey]
  exact Aligned.getD h.shards (.refl _) _

theorem CacheAlike.setShard (h : CacheAlike asked c c') (hkey : (key == key') = true)
    (hs : ShardAlike asked s s') : CacheAlike asked (c.setShard key s) (c'.setShard key' s') where
  sizes := h.sizes
  config := h.config
  shards := by
    unfold Cache.setShard
    rw [h.shardFor hkey]
    exact Aligned.set h.shards hs _

theorem CacheAlike.shardBudget (h : CacheAlike asked c c') : c.shardBudget = c'.shardBudget := by
  unfold Cache.shardBudget
  rw [h.config]

theorem ShardAlike.erase (h : ShardAlike asked s s') {n n' : Slot CacheKey Cell}
    (hn : n ∈ s.lru.slots) (hn' : n' ∈ s'.lru.slots) (hnn : Lru.SlotAlike (CellAlike asked) n n') :
    ShardAlike asked (s.erase n) (s'.erase n') where
  lru := h.lru.erase hn hn' hnn.id
  bytes := by
    unfold Shard.erase
    rw [h.bytes, hnn.val.bytes]

theorem ShardAlike.evictBack (budget : ℕ) : ∀ (fuel : ℕ) {s s' : Shard}, ShardAlike asked s s' →
    ShardAlike asked (s.evictBack budget fuel) (s'.evictBack budget fuel)
  | 0, _, _, h => h
  | fuel + 1, s, s', h => by
    unfold Shard.evictBack
    rw [← h.bytes, ← h.lru.slots.length_eq]
    split_ifs
    · rcases Aligned.option_cases (Aligned.getLast? h.lru.slots) with
        ⟨hn, hn'⟩ | ⟨n, n', hn, hn', hnn⟩
      · simp only [hn, hn']
        exact h
      · simp only [hn, hn']
        exact ShardAlike.evictBack budget fuel
          (h.erase (List.mem_of_getLast? hn) (List.mem_of_getLast? hn') hnn)
    · exact h

theorem CacheAlike.trimmed (h : CacheAlike asked c c') (hs : ShardAlike asked s s') :
    ShardAlike asked (trimmed c s) (trimmed c' s') := by
  unfold Calls.trimmed
  rw [← h.shardBudget, ← hs.lru.slots.length_eq]
  exact hs.evictBack _ _

/-- The node of a key, in both caches or in neither. -/
theorem CacheAlike.find? (h : CacheAlike asked c c') (hkey : (key == key') = true) :
    (c.shard key).lru.find? key = none ∧ (c'.shard key').lru.find? key' = none ∨
      ∃ n n', (c.shard key).lru.find? key = some n ∧ (c'.shard key').lru.find? key' = some n' ∧
        n ∈ (c.shard key).lru.slots ∧ n' ∈ (c'.shard key').lru.slots ∧
        Lru.SlotAlike (CellAlike asked) n n' := by
  rcases Aligned.option_cases ((h.shard hkey).lru.find? hkey) with hnone | ⟨n, n', hn, hn', hnn⟩
  · exact .inl hnone
  · exact .inr ⟨n, n', hn, hn', (Lru.find?_some hn).1, (Lru.find?_some hn').1, hnn⟩

/-! ### Lookups -/

theorem EntryAlike.served {e e' : CacheEntry} (h : EntryAlike asked e e') (now : ℕ) :
    EntryAlike asked (Cache.served now e) (Cache.served now e') where
  records := by
    unfold Cache.served
    rw [h.expiresAt]
    exact List.rel_map (fun _ _ hr => ⟨hr.name, hr.type, hr.cls, rfl, hr.trust, hr.rdata⟩) h.records
  trust := h.trust
  expiresAt := h.expiresAt
  isNegative := h.isNegative

/-- The cell of a node that was found. -/
def hit (x : Cell) : Cell := { x with entry := { x.entry with hitCount := x.entry.hitCount + 1 } }

theorem lookup_of_some {n : Slot CacheKey Cell} (hn : (c.shard key).lru.find? key = some n)
    (hlive : ¬ n.val.entry.expiresAt ≤ now) :
    (c.lookup now key).1 = some (Cache.served now (hit n.val).entry) ∧
      (c.lookup now key).2 =
        { c.setShard key ⟨((c.shard key).lru.toFront n.id).setVal n.id (hit n.val),
            (c.shard key).bytes⟩ with hits := c.hits + 1 } := by
  unfold Cache.lookup
  simp only [hn, hlive, if_false]
  exact ⟨rfl, rfl⟩

theorem lookup_of_expired {n : Slot CacheKey Cell} (hn : (c.shard key).lru.find? key = some n)
    (hexpired : n.val.entry.expiresAt ≤ now) :
    c.lookup now key = (none, { c with misses := c.misses + 1 }) := by
  unfold Cache.lookup
  simp only [hn, hexpired, if_true]

theorem CellAlike.hit {x x' : Cell} (h : CellAlike asked x x') : CellAlike asked (hit x) (hit x') :=
  ⟨⟨h.entry.records, h.entry.trust, h.entry.expiresAt, h.entry.isNegative⟩, h.bytes⟩

/-- **A lookup finds the same in both.** -/
theorem CacheAlike.lookup (h : CacheAlike asked c c') (hkey : (key == key') = true) (now : ℕ) :
    Option.Rel (EntryAlike asked) (c.lookup now key).1 (c'.lookup now key').1 ∧
      CacheAlike asked (c.lookup now key).2 (c'.lookup now key').2 := by
  have hmissed : CacheAlike asked { c with misses := c.misses + 1 }
      { c' with misses := c'.misses + 1 } := ⟨h.sizes, h.config, h.shards⟩
  rcases h.find? hkey with ⟨hn, hn'⟩ | ⟨n, n', hn, hn', -, -, hnn⟩
  · unfold Cache.lookup
    simp only [hn, hn']
    exact ⟨.none, hmissed⟩
  have hexpires := hnn.val.entry.expiresAt
  by_cases hexpired : n.val.entry.expiresAt ≤ now
  · rw [lookup_of_expired hn hexpired, lookup_of_expired hn' (hexpires ▸ hexpired)]
    exact ⟨.none, hmissed⟩
  · obtain ⟨hentry, hcache⟩ := lookup_of_some hn hexpired
    obtain ⟨hentry', hcache'⟩ := lookup_of_some hn' (hexpires ▸ hexpired)
    have hshard := h.shard hkey
    rw [hentry, hentry', hcache, hcache', ← hnn.id]
    have hset := h.setShard hkey (@ShardAlike.mk asked ⟨_, _⟩ ⟨_, _⟩
      ((hshard.lru.toFront n.id).setVal n.id hnn.val.hit) hshard.bytes)
    exact ⟨.some (hnn.val.hit.entry.served now), hset.sizes, hset.config, hset.shards⟩

/-! ### Insertions -/

theorem nameBytes_alike {a b : Name} (h : NameAlike asked a b) (sz : Sizes) :
    nameBytes sz a = nameBytes sz b := by
  unfold nameBytes Name.wireLength
  rw [h.labels]

theorem rdataBytes_alike {d d' : RData} (h : RdataAlike asked d d') (sz : Sizes) :
    rdataBytes sz d = rdataBytes sz d' := by
  cases h with
  | same => rfl
  | ns h | cname h | ptr h | mx preference h => exact nameBytes_alike h sz
  | soa hm hr => exact congrArg₂ (· + ·) (nameBytes_alike hm sz) (nameBytes_alike hr sz)

/-- Names are counted in their length. -/
theorem entryBytes_alike (hkey : (key == key') = true) (h : RrsAlike asked records records')
    (sz : Sizes) : entryBytes sz key records = entryBytes sz key' records' := by
  obtain ⟨hname, -⟩ := CacheKey.beq_iff.mp hkey
  unfold entryBytes
  rw [Aligned.map_eq (fun r r' hr => by
    rw [nameBytes_alike hr.name, rdataBytes_alike hr.rdata]) h]
  unfold nameBytes Name.wireLength
  rw [hname]

theorem CacheAlike.newEntry (h : CacheAlike asked c c') (hr : RrsAlike asked records records') :
    EntryAlike asked (c.newEntry now records trust ttl negative)
      (c'.newEntry now records' trust ttl negative) where
  records := hr
  trust := rfl
  expiresAt := by
    unfold Cache.newEntry Cache.effectiveTtl
    rw [h.config]
  isNegative := rfl

theorem CacheAlike.accepts (h : CacheAlike asked c c') (hkey : (key == key') = true) :
    accepts c now key trust ttl = accepts c' now key' trust ttl := by
  unfold Calls.accepts Cache.effectiveTtl
  rw [h.config]
  rcases Aligned.option_cases (h.lookup hkey now).1 with ⟨he, he'⟩ | ⟨e, e', he, he', hee⟩
  · rw [he, he']
  · rw [he, he']
    simp only [hee.trust]

theorem CacheAlike.written (h : CacheAlike asked c c') (hkey : (key == key') = true)
    (hr : RrsAlike asked records records') :
    ShardAlike asked (written c now key records trust ttl negative)
      (written c' now key' records' trust ttl negative) := by
  have hbytes : entryBytes c.sizes key records = entryBytes c'.sizes key' records' := by
    rw [h.sizes, entryBytes_alike hkey hr]
  have hshard := h.shard hkey
  have hcell : CellAlike asked
      ⟨c.newEntry now records trust ttl negative, entryBytes c.sizes key records⟩
      ⟨c'.newEntry now records' trust ttl negative, entryBytes c'.sizes key' records'⟩ :=
    ⟨h.newEntry hr, hbytes⟩
  rcases h.find? hkey with ⟨hn, hn'⟩ | ⟨n, n', hn, hn', -, -, hnn⟩
  · rw [written_of_none hn, written_of_none hn']
    refine ⟨hshard.lru.push hkey hcell hn hn', ?_⟩
    dsimp only
    rw [hshard.bytes, hbytes]
  · rw [written_of_some hn, written_of_some hn', ← hnn.id]
    refine ⟨(hshard.lru.setVal n.id hcell).toFront n.id, ?_⟩
    dsimp only
    rw [hshard.bytes, hbytes, hnn.val.bytes]

theorem CacheAlike.evict (h : CacheAlike asked c c') (hkey : (key == key') = true) :
    CacheAlike asked (c.evict key) (c'.evict key') := by
  unfold Cache.evict
  rcases h.find? hkey with ⟨hn, hn'⟩ | ⟨n, n', hn, hn', hmem, hmem', hnn⟩
  · simp only [hn, hn']
    exact h
  · simp only [hn, hn']
    exact h.setShard hkey ((h.shard hkey).erase hmem hmem' hnn)

/-- **An insertion does the same to both.** -/
theorem CacheAlike.insert (h : CacheAlike asked c c') (hkey : (key == key') = true)
    (hr : RrsAlike asked records records') (now : ℕ) (trust : TrustRank) (ttl : UInt32)
    (negative : Bool) : CacheAlike asked (c.insert now key records trust ttl negative)
      (c'.insert now key' records' trust ttl negative) := by
  have hover : oversized c key records = oversized c' key' records' := by
    unfold oversized
    rw [h.shardBudget, h.sizes, entryBytes_alike hkey hr]
  have haccepts : Calls.accepts c now key trust ttl = Calls.accepts c' now key' trust ttl :=
    h.accepts hkey
  cases ha : Calls.accepts c now key trust ttl with
  | false =>
    rw [insert_rejected ha, insert_rejected (haccepts ▸ ha)]
    exact h
  | true =>
    cases hbig : oversized c key records with
    | true =>
      rw [insert_oversized ha hbig, insert_oversized (haccepts ▸ ha) (hover ▸ hbig)]
      exact h.evict hkey
    | false =>
      rw [insert_written ha hbig, insert_written (haccepts ▸ ha) (hover ▸ hbig)]
      exact h.setShard hkey (h.trimmed (h.written hkey hr))

end DNSentinel.Store.SharedCase
