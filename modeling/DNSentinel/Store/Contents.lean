import DNSentinel.Store.Model
import Mathlib.Data.List.Basic

/-! # What the cache holds

`Held c k e`: some node of `c` has the key `k` and the entry `e`, hit count aside. Users of the cache
need three facts: a lookup returns an entry that is held for an equal key and has not expired, an
insertion adds at most the entry it was given, and no other operation adds anything. -/

namespace DNSentinel.Store.Contents

open DNSentinel.Types Lib.IndexedLru Model

/-- The entry without its hit count. -/
def forgetHits (e : CacheEntry) : CacheEntry := { e with hitCount := 0 }

/-- `c` holds the entry `e` under `k`. -/
def Held (c : Cache) (k : CacheKey) (e : CacheEntry) : Prop :=
  ∃ s ∈ c.shards, ∃ n ∈ s.lru.slots, n.key = k ∧ forgetHits n.val.entry = e

theorem not_held_create (sizes : Sizes) (config : CacheConfig) (k : CacheKey) (e : CacheEntry) :
    ¬ Held (Cache.create sizes config) k e := by
  rintro ⟨s, hs, n, hn, -⟩
  rw [List.eq_of_mem_replicate hs] at hn
  exact List.not_mem_nil hn

variable {c : Cache} {k key : CacheKey} {e : CacheEntry} {now : ℕ}

theorem mem_shard {n : Slot CacheKey Cell} (h : n ∈ (c.shard key).lru.slots) :
    ∃ s ∈ c.shards, n ∈ s.lru.slots := by
  unfold Cache.shard at h
  by_cases hlt : c.shardFor key < c.shards.length
  · rw [List.getD_eq_getElem _ _ hlt] at h
    exact ⟨_, List.getElem_mem hlt, h⟩
  · rw [List.getD_eq_default _ _ (by omega)] at h
    exact absurd h List.not_mem_nil

/-- After a shard is replaced, what is held was held, or is in the new shard. -/
theorem held_setShard {s : Shard} (h : Held (c.setShard key s) k e) :
    Held c k e ∨ ∃ n ∈ s.lru.slots, n.key = k ∧ forgetHits n.val.entry = e := by
  obtain ⟨s', hs', hn⟩ := h
  rcases List.mem_or_eq_of_mem_set hs' with hs' | rfl
  · exact .inl ⟨s', hs', hn⟩
  · exact .inr hn

theorem held_of_mem_shard {n : Slot CacheKey Cell} (h : n ∈ (c.shard key).lru.slots) :
    Held c n.key (forgetHits n.val.entry) := by
  obtain ⟨s, hs, hn⟩ := mem_shard h
  exact ⟨s, hs, n, hn, rfl, rfl⟩

/-- **A hit** is a held entry for an equal key that has not expired, with the TTLs counted down. -/
theorem lookup_some (h : (c.lookup now key).1 = some e) :
    ∃ k d, Held c k d ∧ (k == key) = true ∧ now < d.expiresAt ∧
      forgetHits e = Cache.served now d := by
  unfold Cache.lookup at h
  cases hf : (c.shard key).lru.find? key with
  | none => simp [hf] at h
  | some n =>
    simp only [hf] at h
    split_ifs at h with hexp
    obtain ⟨hmem, hkey⟩ := Lru.find?_some hf
    refine ⟨n.key, forgetHits n.val.entry, held_of_mem_shard hmem, hkey, Nat.lt_of_not_le hexp, ?_⟩
    rw [← Option.some.inj h]
    rfl

theorem held_lookup (h : Held (c.lookup now key).2 k e) : Held c k e := by
  unfold Cache.lookup at h
  cases hf : (c.shard key).lru.find? key with
  | none =>
    simp only [hf] at h
    exact h
  | some n =>
    simp only [hf] at h
    split_ifs at h with hexp
    · exact h
    obtain ⟨hmem, -⟩ := Lru.find?_some hf
    rcases held_setShard h with h | ⟨m, hm, rfl, rfl⟩
    · exact h
    · rcases Lru.mem_setVal hm with hm | ⟨m', hm', hid, rfl⟩
      · exact held_of_mem_shard (Lru.mem_toFront.mp hm)
      · -- the node that was hit: only its hit count has changed
        rw [Lru.mem_toFront] at hm'
        obtain rfl := (c.shard key).lru.coherent.eq_of_id_eq hm' hmem hid
        show Held c m'.key (forgetHits m'.val.entry)
        exact held_of_mem_shard hmem

theorem mem_shard_erase {s : Shard} {n m : Slot CacheKey Cell} (h : m ∈ (s.erase n).lru.slots) :
    m ∈ s.lru.slots := Lru.mem_erase h

theorem mem_evictBack {budget : ℕ} : ∀ (fuel : ℕ) (s : Shard) {m : Slot CacheKey Cell},
    m ∈ (s.evictBack budget fuel).lru.slots → m ∈ s.lru.slots
  | 0, _, _, h => h
  | fuel + 1, s, m, h => by
    unfold Shard.evictBack at h
    split_ifs at h
    · split at h
      · exact mem_shard_erase (mem_evictBack fuel _ h)
      · exact h
    · exact h

/-- **An insertion** adds at most the entry it was given, under an equal key. -/
theorem held_insert {records : List RR} {trust : TrustRank} {ttl : UInt32} {negative : Bool}
    (h : Held (c.insert now key records trust ttl negative) k e) :
    Held c k e ∨ (k == key) = true ∧ e = c.newEntry now records trust ttl negative := by
  unfold Cache.insert at h
  split_ifs at h with hzero
  · exact .inl h
  dsimp only at h
  split at h
  · next n hf =>
    obtain ⟨hmem, hkey⟩ := Lru.find?_some hf
    split_ifs at h with htrust hbig
    · exact .inl h
    · rcases held_setShard h with h | ⟨m, hm, rfl, rfl⟩
      · exact .inl h
      · exact .inl (held_of_mem_shard (mem_shard_erase hm))
    · rcases held_setShard h with h | ⟨m, hm, rfl, rfl⟩
      · exact .inl h
      have hm := Lru.mem_toFront.mp (mem_evictBack _ _ hm)
      rcases Lru.mem_setVal hm with hm | ⟨m', hm', hid, rfl⟩
      · exact .inl (held_of_mem_shard hm)
      · obtain rfl := (c.shard key).lru.coherent.eq_of_id_eq hm' hmem hid
        exact .inr ⟨hkey, rfl⟩
  · next hf =>
    split_ifs at h with hbig
    · exact .inl h
    rcases held_setShard h with h | ⟨m, hm, rfl, rfl⟩
    · exact .inl h
    rcases Lru.mem_push hf (mem_evictBack _ _ hm) with rfl | hm
    · exact .inr ⟨BEq.rfl, rfl⟩
    · exact .inl (held_of_mem_shard hm)

theorem held_evict (h : Held (c.evict key) k e) : Held c k e := by
  unfold Cache.evict at h
  dsimp only at h
  split at h
  · rcases held_setShard h with h | ⟨m, hm, rfl, rfl⟩
    · exact h
    · exact held_of_mem_shard (mem_shard_erase hm)
  · exact h

theorem not_held_flush : ¬ Held c.flush k e := by
  rintro ⟨s, hs, n, hn, -⟩
  obtain ⟨-, -, rfl⟩ := List.mem_map.mp hs
  exact List.not_mem_nil hn

end DNSentinel.Store.Contents
