import DNSentinel.Store.Calls
import Mathlib.Algebra.Order.BigOperators.Group.List
import Mathlib.Algebra.Order.Ring.Nat

/-! # What the cache counts

Every node is in the shard its key hashes to and carries the bytes it takes; the counter of a shard is
the sum over its nodes and stays within the shard's part of the memory budget. So subtracting a node's
bytes never wraps, the whole cache stays within its budget, and `size` counts keys. -/

namespace DNSentinel.Store.Accounting

open DNSentinel.Types Lib.IndexedLru Model Contents Calls
open Wire.ByteIo (sizeSub sizeSub_of_le)

variable {c c' : Cache} {k key : CacheKey} {now i : ℕ} {records : List RR} {trust : TrustRank}
  {ttl : UInt32} {negative : Bool} {s : Shard} {n : Slot CacheKey Cell}

/-! ### The counter of a shard -/

def totalBytes (slots : List (Slot CacheKey Cell)) : ℕ := (slots.map fun n => n.val.bytes).sum

theorem totalBytes_cons (n : Slot CacheKey Cell) (rest : List (Slot CacheKey Cell)) :
    totalBytes (n :: rest) = n.val.bytes + totalBytes rest := List.sum_cons

theorem totalBytes_perm {slots slots' : List (Slot CacheKey Cell)} (h : slots.Perm slots') :
    totalBytes slots = totalBytes slots' := (h.map _).sum_eq

/-- The counter is the sum over the nodes. -/
def Counted (s : Shard) : Prop := s.bytes = totalBytes s.lru.slots

theorem Counted.covers (h : Counted s) (hn : n ∈ s.lru.slots) : n.val.bytes ≤ s.bytes := by
  rw [h, totalBytes_perm (Lru.erase_perm hn), totalBytes_cons]
  exact Nat.le_add_right ..

theorem Counted.erase (h : Counted s) (hn : n ∈ s.lru.slots) : Counted (s.erase n) := by
  have hsum : s.bytes = n.val.bytes + totalBytes (s.lru.erase n.id).slots := by
    rw [h, totalBytes_perm (Lru.erase_perm hn), totalBytes_cons]
  show sizeSub s.bytes n.val.bytes = totalBytes (s.lru.erase n.id).slots
  rw [sizeSub_of_le (h.covers hn)]
  omega

/-- The counter is exact after every turn of the eviction loop. -/
theorem Counted.evictBack {budget : ℕ} : ∀ (fuel : ℕ) {s : Shard}, Counted s →
    Counted (s.evictBack budget fuel)
  | 0, _, h => h
  | fuel + 1, s, h => by
    unfold Shard.evictBack
    split_ifs
    · split
      · next n hlast => exact Counted.evictBack fuel (h.erase (List.mem_of_getLast? hlast))
      · exact h
    · exact h

/-- Given a turn per node, the loop ends within the budget, or with one node. -/
theorem evictBack_stops {budget : ℕ} : ∀ (fuel : ℕ) (s : Shard), s.lru.slots.length ≤ fuel →
    (s.evictBack budget fuel).bytes ≤ budget ∨ (s.evictBack budget fuel).lru.slots.length ≤ 1
  | 0, s, h => .inr (h.trans (Nat.zero_le 1))
  | fuel + 1, s, h => by
    unfold Shard.evictBack
    split_ifs with hover
    · split
      · next n hlast =>
        obtain ⟨init, hinit⟩ := List.getLast?_eq_some_iff.mp hlast
        refine evictBack_stops fuel _ ?_
        rw [show (s.erase n).lru.slots = init from Lru.slots_erase_last hinit]
        rw [hinit, List.length_append, List.length_singleton] at h
        omega
      · next hnone =>
        rw [List.getLast?_eq_none_iff.mp hnone]
        exact .inr (Nat.zero_le 1)
    · by_cases hbytes : s.bytes ≤ budget
      · exact .inl hbytes
      · exact .inr (Nat.le_of_not_lt fun hlen => hover ⟨Nat.lt_of_not_le hbytes, hlen⟩)

/-- A trimmed shard is within the budget if its first node is. -/
theorem trimmed_within {rest : List (Slot CacheKey Cell)} (h : Counted s)
    (hslots : s.lru.slots = n :: rest) (hn : n.val.bytes ≤ c.shardBudget) :
    (trimmed c s).bytes ≤ c.shardBudget := by
  have hstops : (trimmed c s).bytes ≤ c.shardBudget ∨ (trimmed c s).lru.slots.length ≤ 1 :=
    evictBack_stops s.lru.slots.length s le_rfl
  rcases hstops with hle | hone
  · exact hle
  · have hcounted : Counted (trimmed c s) := h.evictBack _
    have hkept : (trimmed c s).lru.slots ≠ [] := evictBack_ne_nil _ s (by simp [hslots])
    have hsplit := trimmed_append_evicted c s
    obtain ⟨m, kept, hm⟩ := List.exists_cons_of_ne_nil hkept
    rw [hm, hslots, List.cons_append] at hsplit
    obtain ⟨rfl, -⟩ := List.cons.inj hsplit
    have hnil : kept = [] := by
      rw [hm, List.length_cons] at hone
      exact List.length_eq_zero_iff.mp (by omega)
    rw [hcounted, hm, hnil]
    simpa [totalBytes] using hn

/-! ### Nodes -/

/-- A node is where its key belongs, with the bytes it takes. -/
structure NodeOk (c : Cache) (i : ℕ) (n : Slot CacheKey Cell) : Prop where
  home : c.shardFor n.key = i
  sized : n.val.bytes = entryBytes c.sizes n.key n.val.entry.records

structure ShardOk (c : Cache) (i : ℕ) (s : Shard) : Prop where
  nodes : ∀ n ∈ s.lru.slots, NodeOk c i n
  counted : Counted s
  within : s.bytes ≤ c.shardBudget

structure CacheOk (c : Cache) : Prop where
  sharded : Sharded c
  shards : ∀ i s, c.shards[i]? = some s → ShardOk c i s

/-- Equal keys take the same number of bytes. -/
theorem entryBytes_congr {sz : Sizes} (h : (k == key) = true) :
    entryBytes sz k records = entryBytes sz key records := by
  obtain ⟨hname, -⟩ := CacheKey.beq_iff.mp h
  unfold entryBytes nameBytes Name.wireLength
  rw [hname]

theorem shardOk_empty (c : Cache) (i : ℕ) : ShardOk c i {} :=
  ⟨fun _ hn => absurd hn List.not_mem_nil, rfl, Nat.zero_le _⟩

theorem ShardOk.frame (h : ShardOk c i s) (hframe : SameFrame c c') : ShardOk c' i s := by
  have hfor : ∀ k, c'.shardFor k = c.shardFor k := fun k => by
    unfold Cache.shardFor
    rw [hframe.length]
  refine ⟨fun n hn => ⟨?_, ?_⟩, h.counted, ?_⟩
  · rw [hfor]
    exact (h.nodes n hn).home
  · rw [hframe.sizes]
    exact (h.nodes n hn).sized
  · unfold Cache.shardBudget
    rw [hframe.config]
    exact h.within

theorem CacheOk.shard (h : CacheOk c) (key : CacheKey) : ShardOk c (c.shardFor key) (c.shard key) := by
  have hlt : c.shardFor key < c.shards.length := shardFor_lt h.sharded
  unfold Cache.shard
  rw [List.getD_eq_getElem _ _ hlt]
  exact h.shards _ _ (List.getElem?_eq_getElem hlt)

theorem CacheOk.setShard (h : CacheOk c) (hs : ShardOk c (c.shardFor key) s) :
    CacheOk (c.setShard key s) := by
  have hframe := sameFrame_setShard c key s
  refine ⟨?_, fun i t ht => ShardOk.frame ?_ hframe⟩
  · unfold Sharded
    rw [hframe.length, hframe.config]
    exact h.sharded
  · have ht : (c.shards.set (c.shardFor key) s)[i]? = some t := ht
    rw [List.getElem?_set] at ht
    split_ifs at ht with hi hlt
    · obtain rfl := Option.some.inj ht
      exact hi ▸ hs
    · exact h.shards i t ht

theorem ShardOk.erase (h : ShardOk c i s) (hn : n ∈ s.lru.slots) : ShardOk c i (s.erase n) where
  nodes m hm := h.nodes m (mem_shard_erase hm)
  counted := h.counted.erase hn
  within := by
    show sizeSub s.bytes n.val.bytes ≤ c.shardBudget
    rw [sizeSub_of_le (h.counted.covers hn)]
    exact (Nat.sub_le ..).trans h.within

/-! ### The written shard -/

/-- Nodes and counter of the shard just written. -/
theorem written_spec (h : CacheOk c) (now : ℕ) (key : CacheKey) (records : List RR)
    (trust : TrustRank) (ttl : UInt32) (negative : Bool) :
    Counted (written c now key records trust ttl negative) ∧
    ∀ n ∈ (written c now key records trust ttl negative).lru.slots, NodeOk c (c.shardFor key) n := by
  have hshard := h.shard key
  cases hf : (c.shard key).lru.find? key with
  | some n =>
    obtain ⟨hmem, hkey⟩ := Lru.find?_some hf
    rw [written_of_some hf]
    set l := (c.shard key).lru
    set cell : Cell := ⟨c.newEntry now records trust ttl negative, entryBytes c.sizes key records⟩
    have hperm : ((l.setVal n.id cell).toFront n.id).slots.Perm
        ({ n with val := cell } :: (l.erase n.id).slots) :=
      (Lru.toFront_perm _).trans (Lru.setVal_perm hmem cell)
    constructor
    · show sizeSub (c.shard key).bytes n.val.bytes + _ = totalBytes _
      have hold : (c.shard key).bytes = n.val.bytes + totalBytes (l.erase n.id).slots := by
        rw [hshard.counted, totalBytes_perm (Lru.erase_perm hmem), totalBytes_cons]
      rw [totalBytes_perm hperm, totalBytes_cons, sizeSub_of_le (hshard.counted.covers hmem)]
      show _ + cell.bytes = cell.bytes + _
      omega
    · intro m hm
      rcases List.mem_cons.mp (hperm.subset hm) with rfl | hm
      · exact ⟨shardFor_congr hkey, (entryBytes_congr hkey).symm⟩
      · exact hshard.nodes m (Lru.mem_erase hm)
  | none =>
    rw [written_of_none hf]
    constructor
    · show (c.shard key).bytes + _ = totalBytes (_ :: _)
      rw [totalBytes_cons, hshard.counted]
      exact Nat.add_comm ..
    · intro m hm
      rcases Lru.mem_push hf hm with rfl | hm
      · exact ⟨rfl, rfl⟩
      · exact hshard.nodes m hm

theorem ShardOk.trimmed (h : CacheOk c) (now : ℕ) (trust : TrustRank) (ttl : UInt32)
    (negative : Bool) (hfits : oversized c key records = false) :
    ShardOk c (c.shardFor key) (trimmed c (written c now key records trust ttl negative)) := by
  obtain ⟨hcounted, hnodes⟩ := written_spec h now key records trust ttl negative
  obtain ⟨n, rest, hslots, -, hbytes⟩ := written_head c now key records trust ttl negative
  refine ⟨fun m hm => hnodes m (mem_evictBack _ _ hm), hcounted.evictBack _, ?_⟩
  refine trimmed_within hcounted hslots ?_
  rw [hbytes]
  exact Nat.le_of_not_lt (of_decide_eq_false hfits)

/-! ### Every call keeps the accounts -/

theorem CacheOk.evict (h : CacheOk c) (key : CacheKey) : CacheOk (c.evict key) := by
  unfold Cache.evict
  dsimp only
  split
  · next n hf => exact h.setShard ((h.shard key).erase (Lru.find?_some hf).1)
  · exact h

theorem CacheOk.congr (h : CacheOk c) (hframe : SameFrame c c') (hshards : c'.shards = c.shards) :
    CacheOk c' where
  sharded := by
    unfold Sharded
    rw [hframe.config, hframe.length]
    exact h.sharded
  shards i s hs := (h.shards i s (hshards ▸ hs)).frame hframe

/-- The shard of a hit: the node is moved to the front, and its hits are counted. -/
theorem ShardOk.hit (cell : Cell) (h : ShardOk c i s) (hn : n ∈ s.lru.slots)
    (hbytes : cell.bytes = n.val.bytes) (hrecords : cell.entry.records = n.val.entry.records) :
    ShardOk c i { s with lru := (s.lru.toFront n.id).setVal n.id cell } where
  nodes m hm := by
    rcases Lru.mem_setVal hm with hm | ⟨m', hm', hid, rfl⟩
    · exact h.nodes m (Lru.mem_toFront.mp hm)
    · obtain rfl := s.lru.coherent.eq_of_id_eq (Lru.mem_toFront.mp hm') hn hid
      refine ⟨(h.nodes m' hn).home, ?_⟩
      show cell.bytes = entryBytes c.sizes m'.key cell.entry.records
      rw [hbytes, hrecords]
      exact (h.nodes m' hn).sized
  counted := by
    have hn' : n ∈ (s.lru.toFront n.id).slots := Lru.mem_toFront.mpr hn
    show s.bytes = totalBytes _
    rw [totalBytes_perm (Lru.setVal_perm hn' cell), totalBytes_cons, hbytes, ← totalBytes_cons,
      ← totalBytes_perm (Lru.erase_perm hn'), totalBytes_perm (Lru.toFront_perm n.id)]
    exact h.counted
  within := h.within

theorem CacheOk.lookup (h : CacheOk c) (now : ℕ) (key : CacheKey) : CacheOk (c.lookup now key).2 := by
  unfold Cache.lookup
  dsimp only
  split
  · exact h.congr ⟨rfl, rfl, rfl⟩ rfl
  · next n hf =>
    split_ifs
    · exact h.congr ⟨rfl, rfl, rfl⟩ rfl
    · let entry := { n.val.entry with hitCount := n.val.entry.hitCount + 1 }
      have hset := h.setShard (ShardOk.hit { n.val with entry } (h.shard key) (Lru.find?_some hf).1
        rfl rfl)
      exact hset.congr ⟨rfl, rfl, rfl⟩ rfl

/-- **Every call keeps the accounts.** -/
theorem CacheOk.perform (h : CacheOk c) (now : ℕ) (op : Op) : CacheOk (perform c now op) := by
  cases op with
  | insert key records trust ttl negative =>
    show CacheOk (c.insert now key records trust ttl negative)
    rcases insert_cases c now key records trust ttl negative with
      ⟨-, heq⟩ | ⟨-, -, heq⟩ | ⟨-, hfits, heq⟩ <;> rw [heq]
    · exact h
    · exact h.evict key
    · exact h.setShard (ShardOk.trimmed h now trust ttl negative hfits)
  | lookup key => exact h.lookup now key
  | evict key => exact h.evict key
  | flush =>
    refine ⟨?_, fun i s hs => ?_⟩
    · unfold Sharded
      rw [show (Calls.perform c now .flush).shards.length = _ from List.length_map ..]
      exact h.sharded
    · have hs : (c.shards.map fun _ => ({} : Shard))[i]? = some s := hs
      rw [List.getElem?_map] at hs
      obtain ⟨-, -, rfl⟩ := Option.map_eq_some_iff.mp hs
      exact shardOk_empty _ i

theorem cacheOk_create (sizes : Sizes) (config : CacheConfig) :
    CacheOk (Cache.create sizes config) where
  sharded := sharded_create sizes config
  shards i s hs := by
    obtain rfl := List.eq_of_mem_replicate (List.mem_of_getElem? hs)
    exact shardOk_empty _ i

/-! ### Keys -/

/-- The keys held. -/
def keys (c : Cache) : List CacheKey := c.shards.flatMap fun s => s.lru.slots.map Slot.key

theorem length_keys (c : Cache) : (keys c).length = c.size := by
  unfold keys Cache.size
  rw [List.length_flatMap]
  simp only [List.length_map]

theorem mem_keys : k ∈ keys c ↔
    ∃ (i : ℕ) (s : Shard), c.shards[i]? = some s ∧ ∃ n ∈ s.lru.slots, n.key = k := by
  unfold keys
  rw [List.mem_flatMap]
  constructor
  · rintro ⟨s, hs, hk⟩
    obtain ⟨i, hi⟩ := List.mem_iff_getElem?.mp hs
    obtain ⟨n, hn, rfl⟩ := List.mem_map.mp hk
    exact ⟨i, s, hi, n, hn, rfl⟩
  · rintro ⟨i, s, hi, n, hn, rfl⟩
    exact ⟨s, List.mem_of_getElem? hi, List.mem_map_of_mem hn⟩

theorem keys_pairwise (h : CacheOk c) : (keys c).Pairwise fun a b => (a == b) = false := by
  unfold keys
  rw [List.pairwise_flatMap]
  constructor
  · intro s _
    rw [List.pairwise_map]
    exact s.lru.coherent.key_ne
  · rw [List.pairwise_iff_getElem]
    intro i j hi hj hij a ha b hb
    obtain ⟨n, hn, rfl⟩ := List.mem_map.mp ha
    obtain ⟨m, hm, rfl⟩ := List.mem_map.mp hb
    have hhome := ((h.shards i _ (List.getElem?_eq_getElem hi)).nodes n hn).home
    have hhome' := ((h.shards j _ (List.getElem?_eq_getElem hj)).nodes m hm).home
    by_contra hsame
    have hfor : c.shardFor n.key = c.shardFor m.key := shardFor_congr (by simpa using hsame)
    omega

theorem content_isSome_iff (h : CacheOk c) :
    (content c k).isSome = true ↔ ∃ k' ∈ keys c, (k' == k) = true := by
  unfold content
  rw [Option.isSome_map, Option.isSome_iff_exists]
  constructor
  · rintro ⟨n, hn⟩
    obtain ⟨hmem, hkey⟩ := Lru.find?_some hn
    refine ⟨n.key, mem_keys.mpr ⟨c.shardFor k, c.shard k, ?_, n, hmem, rfl⟩, hkey⟩
    have hlt : c.shardFor k < c.shards.length := shardFor_lt h.sharded
    unfold Cache.shard
    rw [List.getD_eq_getElem _ _ hlt]
    exact List.getElem?_eq_getElem hlt
  · rintro ⟨k', hk', hkey⟩
    obtain ⟨i, s, hs, n, hn, rfl⟩ := mem_keys.mp hk'
    have hhome : c.shardFor k = i :=
      (shardFor_congr hkey).symm.trans ((h.shards i s hs).nodes n hn).home
    have hshard : c.shard k = s := by
      unfold Cache.shard
      rw [hhome, List.getD_eq_getElem?_getD, hs]
      rfl
    exact ⟨n, Lru.find?_eq_some_iff.mpr ⟨hshard ▸ hn, hkey⟩⟩

theorem memoryUsed_le (h : CacheOk c) : c.memoryUsed ≤ c.config.maxMemoryBytes := by
  have hsum : c.memoryUsed ≤ c.shards.length * c.shardBudget := by
    unfold Cache.memoryUsed
    have hall : ∀ x ∈ c.shards.map Shard.bytes, x ≤ c.shardBudget := by
      intro x hx
      obtain ⟨s, hs, rfl⟩ := List.mem_map.mp hx
      obtain ⟨i, hi⟩ := List.mem_iff_getElem?.mp hs
      exact (h.shards i s hi).within
    have hle := List.sum_le_card_nsmul _ _ hall
    rwa [List.length_map, nsmul_eq_mul, Nat.cast_id] at hle
  refine hsum.trans ?_
  rw [h.sharded]
  exact Nat.mul_div_le ..

/-! ### The representation -/

/-- A shard represents what it should, and counts it. -/
structure Represents (c : Cache) (i : ℕ) (s : Shard) : Prop where
  /-- the index is the list's keys and nodes, each once -/
  indexed : s.lru.index.Perm (s.lru.slots.map fun n => (n.key, n.id))
  found : ∀ n ∈ s.lru.slots, s.lru.find? n.key = some n
  distinct : s.lru.slots.Pairwise fun a b => (a.key == b.key) = false
  home : ∀ n ∈ s.lru.slots, c.shardFor n.key = i
  sized : ∀ n ∈ s.lru.slots, n.val.bytes = entryBytes c.sizes n.key n.val.entry.records
  counted : s.bytes = (s.lru.slots.map fun n => n.val.bytes).sum
  /-- no subtraction of a node's bytes wraps -/
  covers : ∀ n ∈ s.lru.slots, n.val.bytes ≤ s.bytes
  within : s.bytes ≤ c.config.maxMemoryBytes / max c.config.numShards 1

/-- The whole cache, its totals, and the eviction loop of every insertion into it. -/
structure Accounted (c : Cache) : Prop where
  shards : ∀ i s, c.shards[i]? = some s → Represents c i s
  memory : c.memoryUsed ≤ c.config.maxMemoryBytes
  size : ∃ held : List CacheKey, held.Pairwise (fun a b => (a == b) = false) ∧
    c.size = held.length ∧ ∀ k, (content c k).isSome = true ↔ ∃ k' ∈ held, (k' == k) = true
  /-- also between the turns of the eviction loop, no subtraction wraps -/
  turns : ∀ now key records trust ttl negative turn,
    let s := (written c now key records trust ttl negative).evictBack c.shardBudget turn
    s.bytes = (s.lru.slots.map fun n => n.val.bytes).sum ∧ ∀ n ∈ s.lru.slots, n.val.bytes ≤ s.bytes

theorem ShardOk.represents (h : ShardOk c i s) : Represents c i s where
  indexed := s.lru.coherent.index_perm
  found _ hn := Lru.find?_eq_some_iff.mpr ⟨hn, BEq.rfl⟩
  distinct := s.lru.coherent.key_ne
  home n hn := (h.nodes n hn).home
  sized n hn := (h.nodes n hn).sized
  counted := h.counted
  covers _ hn := h.counted.covers hn
  within := h.within

/-- **After every history of calls the accounts are in order.** -/
theorem history_accounted {sizes : Sizes} {config : CacheConfig} {calls : List Call}
    (h : History sizes config calls c) : Accounted c := by
  have hok : CacheOk c := h.keeps (cacheOk_create sizes config) fun _ now op hc => hc.perform now op
  refine ⟨fun i s hs => (hok.shards i s hs).represents, memoryUsed_le hok, ?_, ?_⟩
  · exact ⟨keys c, keys_pairwise hok, (length_keys c).symm, fun k => content_isSome_iff hok⟩
  · intro now key records trust ttl negative turn
    have hcounted := (written_spec hok now key records trust ttl negative).1
    have hturn : Counted ((written c now key records trust ttl negative).evictBack
      c.shardBudget turn) := hcounted.evictBack turn
    exact ⟨hturn, fun n hn => hturn.covers hn⟩

theorem history_accounted_fiveInserts :
    History ⟨0, 0, 0, 0⟩ smallConfig (smallHistory fiveInserts).1 (smallHistory fiveInserts).2 ∧
    (smallHistory fiveInserts).2.size = 2 ∧
    (smallHistory fiveInserts).2.memoryUsed = 152 ∧ Accounted (smallHistory fiveInserts).2 :=
  ⟨history_small (by decide), by decide +kernel, by decide +kernel,
    history_accounted (history_small (by decide))⟩

end DNSentinel.Store.Accounting
