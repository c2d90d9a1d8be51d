import DNSentinel.Store.Contents

/-! # Calls of the cache

`content c k` is the entry the cache has for `k`, live or not. A lookup returns it while it is live; an
insertion is rejected, or too large, or written to the front of its shard, from whose back the least
recently used entries are then evicted. A history is any sequence of calls at clock values that do not
decrease. -/

namespace DNSentinel.Store.Calls

open DNSentinel.Types Lib.IndexedLru Model Contents
open Wire.ByteIo (sizeSub)

variable {c : Cache} {k key : CacheKey} {now : ℕ} {records : List RR} {trust : TrustRank}
  {ttl : UInt32} {negative : Bool}

/-! ### Contents -/

/-- The entry for a key, hit count aside. -/
def content (c : Cache) (k : CacheKey) : Option CacheEntry :=
  ((c.shard k).lru.find? k).map fun n => forgetHits n.val.entry

/-- The entry for a key, if it has not expired. -/
def live (c : Cache) (now : ℕ) (k : CacheKey) : Option CacheEntry :=
  (content c k).filter fun e => decide (now < e.expiresAt)

theorem shardFor_congr (h : (k == key) = true) : c.shardFor k = c.shardFor key := by
  obtain ⟨hname, htype, hclass⟩ := CacheKey.beq_iff.mp h
  unfold Cache.shardFor keyHash nameHash
  rw [hname, htype, hclass]

theorem shard_congr (h : (k == key) = true) : c.shard k = c.shard key := by
  unfold Cache.shard
  rw [shardFor_congr h]

theorem content_congr (h : (k == key) = true) : content c k = content c key := by
  unfold content
  rw [shard_congr h, Lru.find?_congr h]

/-- A lookup returns the live entry, with the TTLs counted down. -/
theorem lookup_eq : (c.lookup now k).1.map forgetHits = (live c now k).map (Cache.served now) := by
  unfold Cache.lookup live content
  dsimp only
  cases hf : (c.shard k).lru.find? k with
  | none => rfl
  | some n =>
    simp only [Option.map_some]
    by_cases hexp : n.val.entry.expiresAt ≤ now
    · have hdead : decide (now < (forgetHits n.val.entry).expiresAt) = false :=
        decide_eq_false (Nat.not_lt.mpr hexp)
      simp only [hexp, if_true, Option.filter_some, hdead, Bool.false_eq_true, if_false,
        Option.map_none]
    · have hlive : now < (forgetHits n.val.entry).expiresAt := Nat.lt_of_not_le hexp
      simp only [hexp, if_false, Option.filter_some, hlive, decide_true, if_true, Option.map_some]
      rfl

theorem lookup_none_iff : (c.lookup now k).1 = none ↔ live c now k = none := by
  rw [← Option.map_eq_none_iff (f := forgetHits), lookup_eq, Option.map_eq_none_iff]

theorem lookup_missed (h : (c.lookup now k).1 = none) :
    (c.lookup now k).2 = { c with misses := c.misses + 1 } := by
  unfold Cache.lookup at h ⊢
  dsimp only at h ⊢
  split at h
  · rfl
  · split_ifs at h ⊢
    rfl

/-! ### Shards -/

/-- The cache has shards, as many as the constructor made. -/
def Sharded (c : Cache) : Prop := c.shards.length = max c.config.numShards 1

theorem shardFor_lt (h : Sharded c) : c.shardFor k < c.shards.length := by
  refine Nat.mod_lt _ ?_
  rw [h]
  exact Nat.lt_of_lt_of_le Nat.zero_lt_one (le_max_right ..)

theorem shard_setShard (h : Sharded c) {s : Shard} : (c.setShard key s).shard k =
    if c.shardFor key = c.shardFor k then s else c.shard k := by
  have hfor : (c.setShard key s).shardFor k = c.shardFor k := by
    unfold Cache.shardFor Cache.setShard
    rw [List.length_set]
  unfold Cache.shard
  rw [hfor]
  show (c.shards.set (c.shardFor key) s).getD (c.shardFor k) {} = _
  rw [List.getD_eq_getElem?_getD, List.getElem?_set]
  by_cases hsame : c.shardFor key = c.shardFor k
  · rw [if_pos hsame, if_pos hsame, if_pos (hsame ▸ shardFor_lt h)]
    rfl
  · rw [if_neg hsame, if_neg hsame, List.getD_eq_getElem?_getD]

theorem content_setShard (h : Sharded c) {s : Shard} : content (c.setShard key s) k =
    if c.shardFor key = c.shardFor k then (s.lru.find? k).map fun n => forgetHits n.val.entry
    else content c k := by
  unfold content
  rw [shard_setShard h]
  split_ifs <;> rfl

/-! ### Insertions -/

/-- Whether an insertion is accepted: its TTL is not 0, and no live entry is trusted more. -/
def accepts (c : Cache) (now : ℕ) (key : CacheKey) (trust : TrustRank) (ttl : UInt32) : Bool :=
  c.effectiveTtl ttl != 0 &&
    match (c.lookup now key).1 with
    | some e => decide (e.trust.toNat ≤ trust.toNat)
    | none => true

/-- Whether an entry is too large for its shard. -/
def oversized (c : Cache) (key : CacheKey) (records : List RR) : Bool :=
  decide (c.shardBudget < entryBytes c.sizes key records)

/-- The shard of `key` with the new entry in front, before anything is evicted. -/
def written (c : Cache) (now : ℕ) (key : CacheKey) (records : List RR) (trust : TrustRank)
    (ttl : UInt32) (negative : Bool) : Shard :=
  let cell : Cell := ⟨c.newEntry now records trust ttl negative, entryBytes c.sizes key records⟩
  let s := c.shard key
  match h : s.lru.find? key with
  | some n =>
    { lru := (s.lru.setVal n.id cell).toFront n.id
      bytes := sizeSub s.bytes n.val.bytes + cell.bytes }
  | none => { lru := s.lru.push key cell h, bytes := s.bytes + cell.bytes }

theorem written_of_some {n : Slot CacheKey Cell} (hf : (c.shard key).lru.find? key = some n) :
    written c now key records trust ttl negative =
      { lru := ((c.shard key).lru.setVal n.id ⟨c.newEntry now records trust ttl negative,
          entryBytes c.sizes key records⟩).toFront n.id
        bytes := sizeSub (c.shard key).bytes n.val.bytes + entryBytes c.sizes key records } := by
  unfold written
  dsimp only
  split
  · next m hm =>
    obtain rfl := Option.some.inj (hf.symm.trans hm)
    rfl
  · next hm => exact absurd (hf.symm.trans hm) (by simp)

theorem written_of_none (hf : (c.shard key).lru.find? key = none) :
    written c now key records trust ttl negative =
      { lru := (c.shard key).lru.push key ⟨c.newEntry now records trust ttl negative,
          entryBytes c.sizes key records⟩ hf
        bytes := (c.shard key).bytes + entryBytes c.sizes key records } := by
  unfold written
  dsimp only
  split
  · next m hm => exact absurd (hf.symm.trans hm) (by simp)
  · rfl

/-- What is left of a shard once it is within its budget. -/
def trimmed (c : Cache) (s : Shard) : Shard := s.evictBack c.shardBudget s.lru.slots.length

theorem accepts_eq : accepts c now key trust ttl = true ↔ c.effectiveTtl ttl ≠ 0 ∧
    ∀ e, live c now key = some e → e.trust.toNat ≤ trust.toNat := by
  unfold accepts
  rw [Bool.and_eq_true, bne_iff_ne]
  refine and_congr_right fun _ => ?_
  have hlookup : (c.lookup now key).1.map forgetHits = (live c now key).map (Cache.served now) :=
    lookup_eq
  cases hl : (c.lookup now key).1 with
  | none =>
    rw [lookup_none_iff.mp hl]
    simp
  | some e =>
    rw [hl] at hlookup
    obtain ⟨d, hd, hserved⟩ := Option.map_eq_some_iff.mp hlookup.symm
    have htrust : (Cache.served now d).trust = (forgetHits e).trust := by rw [hserved]
    have htrust : d.trust = e.trust := htrust
    rw [hd]
    simp [htrust]

/-- The entry of a node the index finds. -/
theorem live_of_find? {n : Slot CacheKey Cell} (hf : (c.shard key).lru.find? key = some n) :
    live c now key =
      if now < n.val.entry.expiresAt then some (forgetHits n.val.entry) else none := by
  unfold live content
  rw [hf]
  simp only [Option.map_some, Option.filter_some, decide_eq_true_eq]
  rfl

theorem insert_rejected (h : accepts c now key trust ttl = false) :
    c.insert now key records trust ttl negative = c := by
  by_contra hne
  refine absurd h (Bool.not_eq_false _ ▸ accepts_eq.mpr ⟨?_, ?_⟩)
  · intro hzero
    exact hne (by unfold Cache.insert; rw [if_pos hzero])
  · intro e he
    by_contra htrust
    refine hne ?_
    unfold Cache.insert
    split_ifs
    · rfl
    dsimp only
    split
    · next n hf =>
      rw [live_of_find? hf] at he
      split_ifs at he with hlive
      obtain rfl := Option.some.inj he
      rw [if_pos ⟨hlive, Nat.lt_of_not_le htrust⟩]
    · next hf =>
      unfold live content at he
      rw [hf] at he
      simp at he

theorem not_outranked {n : Slot CacheKey Cell} (h : accepts c now key trust ttl = true)
    (hf : (c.shard key).lru.find? key = some n) :
    ¬ (now < n.val.entry.expiresAt ∧ trust.toNat < n.val.entry.trust.toNat) := fun ⟨hlive, hlt⟩ =>
  absurd ((accepts_eq.mp h).2 _ ((live_of_find? hf).trans (if_pos hlive))) (Nat.not_le.mpr hlt)

/-- An accepted insertion that is too large removes what was there. -/
theorem insert_oversized (h : accepts c now key trust ttl = true)
    (hbig : oversized c key records = true) :
    c.insert now key records trust ttl negative = c.evict key := by
  have hbig : c.shardBudget < entryBytes c.sizes key records := of_decide_eq_true hbig
  unfold Cache.insert Cache.evict
  rw [if_neg (accepts_eq.mp h).1]
  dsimp only
  split
  · next n hf =>
    rw [if_neg (not_outranked h hf), if_pos hbig, hf]
  · next hf => rw [if_pos hbig, hf]

/-- An accepted insertion that fits is written, and the shard trimmed. -/
theorem insert_written (h : accepts c now key trust ttl = true)
    (hfits : oversized c key records = false) :
    c.insert now key records trust ttl negative =
      c.setShard key (trimmed c (written c now key records trust ttl negative)) := by
  have hfits : ¬ c.shardBudget < entryBytes c.sizes key records := of_decide_eq_false hfits
  unfold Cache.insert trimmed
  rw [if_neg (accepts_eq.mp h).1]
  dsimp only
  split
  · next n hf =>
    rw [if_neg (not_outranked h hf), if_neg hfits, written_of_some hf]
  · next hf => rw [if_neg hfits, written_of_none hf]

theorem insert_cases (c : Cache) (now : ℕ) (key : CacheKey) (records : List RR) (trust : TrustRank)
    (ttl : UInt32) (negative : Bool) :
    accepts c now key trust ttl = false ∧ c.insert now key records trust ttl negative = c ∨
    accepts c now key trust ttl = true ∧ oversized c key records = true ∧
      c.insert now key records trust ttl negative = c.evict key ∨
    accepts c now key trust ttl = true ∧ oversized c key records = false ∧
      c.insert now key records trust ttl negative =
        c.setShard key (trimmed c (written c now key records trust ttl negative)) := by
  cases haccepts : accepts c now key trust ttl with
  | false => exact .inl ⟨rfl, insert_rejected haccepts⟩
  | true =>
    cases hbig : oversized c key records with
    | true => exact .inr (.inl ⟨rfl, rfl, insert_oversized haccepts hbig⟩)
    | false => exact .inr (.inr ⟨rfl, rfl, insert_written haccepts hbig⟩)

/-- The nodes that are evicted to make room: the least recently used ones. -/
def evicted (c : Cache) (s : Shard) : List (Slot CacheKey Cell) :=
  s.lru.slots.drop (trimmed c s).lru.slots.length

theorem evictBack_slots {budget : ℕ} : ∀ (fuel : ℕ) (s : Shard),
    (s.evictBack budget fuel).lru.slots <+: s.lru.slots
  | 0, _ => List.prefix_rfl
  | fuel + 1, s => by
    unfold Shard.evictBack
    split_ifs
    · split
      · next n hlast =>
        obtain ⟨init, hinit⟩ := List.getLast?_eq_some_iff.mp hlast
        have herase : (s.erase n).lru.slots = init := Lru.slots_erase_last hinit
        have ih : ((s.erase n).evictBack budget fuel).lru.slots <+: (s.erase n).lru.slots :=
          evictBack_slots fuel (s.erase n)
        rw [herase] at ih
        exact ih.trans (hinit ▸ List.prefix_append init [n])
      · exact List.prefix_rfl
    · exact List.prefix_rfl

theorem trimmed_append_evicted (c : Cache) (s : Shard) :
    (trimmed c s).lru.slots ++ evicted c s = s.lru.slots :=
  List.prefix_iff_eq_append.mp (evictBack_slots _ s)

/-- Nothing is evicted from a shard within its budget. -/
theorem evicted_eq_nil {s : Shard} (h : s.bytes ≤ c.shardBudget) : evicted c s = [] := by
  have hsame : trimmed c s = s := by
    unfold trimmed
    cases s.lru.slots.length with
    | zero => rfl
    | succ n =>
      unfold Shard.evictBack
      rw [if_neg fun hover => absurd hover.1 (Nat.not_lt.mpr h)]
  unfold evicted
  rw [hsame, List.drop_length]

/-- What the index of a trimmed shard finds. -/
theorem find?_trimmed {s : Shard} : (trimmed c s).lru.find? k =
    if (evicted c s).any fun n => n.key == k then none else s.lru.find? k := by
  have hsplit := trimmed_append_evicted c s
  have hdisjoint := hsplit ▸ s.lru.coherent.key_ne
  ext n
  rw [Lru.find?_eq_some_iff]
  split_ifs with hgone
  · refine ⟨fun ⟨hn, hkey⟩ => ?_, fun h => absurd h (by simp)⟩
    obtain ⟨m, hm, hmkey⟩ := List.any_eq_true.mp hgone
    have hne := (List.pairwise_append.mp hdisjoint).2.2 n hn m hm
    rw [PartialEquivBEq.trans hkey (PartialEquivBEq.symm hmkey)] at hne
    exact absurd hne (by simp)
  · rw [Lru.find?_eq_some_iff, ← hsplit, List.mem_append]
    refine ⟨fun ⟨hn, hkey⟩ => ⟨.inl hn, hkey⟩, fun ⟨hn, hkey⟩ => ⟨?_, hkey⟩⟩
    rcases hn with hn | hn
    · exact hn
    · exact absurd (List.any_eq_true.mpr ⟨n, hn, hkey⟩) hgone

/-- What the index of the written shard finds. -/
theorem find?_written : ((written c now key records trust ttl negative).lru.find? k).map
      (fun n => forgetHits n.val.entry) =
    if k == key then some (c.newEntry now records trust ttl negative)
    else ((c.shard key).lru.find? k).map fun n => forgetHits n.val.entry := by
  cases hf : (c.shard key).lru.find? key with
  | some n =>
    obtain ⟨hmem, hkey⟩ := Lru.find?_some hf
    rw [written_of_some hf, Lru.find?_toFront, Lru.find?_setVal, Option.map_map]
    split_ifs with hk
    · rw [Lru.find?_congr hk, hf]
      simp only [Option.map_some, Function.comp_apply, Slot.assign, if_true]
      rfl
    · cases hm : (c.shard key).lru.find? k with
      | none => rfl
      | some m =>
        obtain ⟨hmmem, hmkey⟩ := Lru.find?_some hm
        have hid : m.id ≠ n.id := by
          intro hid
          obtain rfl := (c.shard key).lru.coherent.eq_of_id_eq hmmem hmem hid
          exact hk (PartialEquivBEq.trans (PartialEquivBEq.symm hmkey) hkey)
        simp only [Option.map_some, Function.comp_apply, Slot.assign, if_neg hid]
  | none =>
    rw [written_of_none hf, Lru.find?_push]
    by_cases hk : (key == k) = true
    · rw [if_pos hk, if_pos (PartialEquivBEq.symm hk)]
      rfl
    · rw [if_neg hk, if_neg fun h => hk (PartialEquivBEq.symm h)]

theorem written_head (c : Cache) (now : ℕ) (key : CacheKey) (records : List RR) (trust : TrustRank)
    (ttl : UInt32) (negative : Bool) :
    ∃ n rest, (written c now key records trust ttl negative).lru.slots = n :: rest ∧
      (n.key == key) = true ∧ n.val.bytes = entryBytes c.sizes key records := by
  cases hf : (c.shard key).lru.find? key with
  | some n =>
    obtain ⟨hmem, hkey⟩ := Lru.find?_some hf
    rw [written_of_some hf]
    have hslot : ({ n with val := ⟨c.newEntry now records trust ttl negative,
        entryBytes c.sizes key records⟩ } : Slot CacheKey Cell) ∈ ((c.shard key).lru.setVal n.id
        ⟨c.newEntry now records trust ttl negative, entryBytes c.sizes key records⟩).slots :=
      List.mem_map.mpr ⟨n, hmem, if_pos rfl⟩
    obtain ⟨rest, hrest⟩ := Lru.toFront_head hslot
    exact ⟨_, rest, hrest, hkey, rfl⟩
  | none =>
    rw [written_of_none hf]
    exact ⟨_, _, rfl, BEq.rfl, rfl⟩

theorem evictBack_ne_nil {budget : ℕ} : ∀ (fuel : ℕ) (s : Shard), s.lru.slots ≠ [] →
    (s.evictBack budget fuel).lru.slots ≠ []
  | 0, _, h => h
  | fuel + 1, s, h => by
    unfold Shard.evictBack
    split_ifs with hover
    · split
      · next n hlast =>
        obtain ⟨init, hinit⟩ := List.getLast?_eq_some_iff.mp hlast
        refine evictBack_ne_nil fuel _ ?_
        rw [show (s.erase n).lru.slots = init from Lru.slots_erase_last hinit]
        rintro rfl
        rw [hinit] at hover
        exact absurd hover.2 (by simp)
      · exact h
    · exact h

theorem written_kept : ((evicted c (written c now key records trust ttl negative)).any
    fun n => n.key == key) = false := by
  obtain ⟨n, rest, hslots, hkey, -⟩ := written_head c now key records trust ttl negative
  set s := written c now key records trust ttl negative
  have hkept : (trimmed c s).lru.slots ≠ [] := evictBack_ne_nil _ s (by simp [hslots])
  obtain ⟨m, kept, hm⟩ := List.exists_cons_of_ne_nil hkept
  have hsplit := trimmed_append_evicted c s
  rw [hm, hslots, List.cons_append] at hsplit
  obtain ⟨rfl, hrest⟩ := List.cons.inj hsplit
  rw [List.any_eq_false]
  intro x hx hxkey
  have hne := (List.pairwise_cons.mp (hslots ▸ s.lru.coherent.key_ne)).1 x
    (hrest ▸ List.mem_append_right kept hx)
  rw [PartialEquivBEq.trans hkey (PartialEquivBEq.symm hxkey)] at hne
  exact absurd hne (by simp)

/-! ### Histories -/

/-- A call. -/
inductive Op where
  | insert (key : CacheKey) (records : List RR) (trust : TrustRank) (ttl : UInt32) (negative : Bool)
  | lookup (key : CacheKey)
  | evict (key : CacheKey)
  | flush

/-- The cache after a call. -/
def perform (c : Cache) (now : ℕ) : Op → Cache
  | .insert key records trust ttl negative => c.insert now key records trust ttl negative
  | .lookup key => (c.lookup now key).2
  | .evict key => c.evict key
  | .flush => c.flush

/-- A call that was made, with the cache it found. -/
structure Call where
  before : Cache
  now : ℕ
  op : Op

/-- The calls made since the cache was created, newest first. -/
inductive History (sizes : Sizes) (config : CacheConfig) : List Call → Cache → Prop
  | nil : History sizes config [] (Cache.create sizes config)
  | cons {calls : List Call} {c : Cache} (h : History sizes config calls c) {now : ℕ}
      (hnow : ∀ call ∈ calls, call.now ≤ now) (op : Op) :
      History sizes config (⟨c, now, op⟩ :: calls) (perform c now op)

/-- **The rule for histories**: what holds of the new cache and every call keeps. -/
theorem History.keeps {sizes : Sizes} {config : CacheConfig} {calls : List Call} {P : Cache → Prop}
    (h : History sizes config calls c) (hnew : P (Cache.create sizes config))
    (hcall : ∀ c now op, P c → P (perform c now op)) : P c := by
  induction h with
  | nil => exact hnew
  | cons _ _ op ih => exact hcall _ _ op ih

/-- The next call, at its time. -/
def nextCall (x : List Call × Cache) (o : ℕ × Op) : List Call × Cache :=
  (⟨x.2, o.1, o.2⟩ :: x.1, perform x.2 o.1 o.2)

theorem history_foldl {sizes : Sizes} {config : CacheConfig} : ∀ (ops : List (ℕ × Op))
    (x : List Call × Cache), History sizes config x.1 x.2 →
    (∀ call ∈ x.1, ∀ o ∈ ops, call.now ≤ o.1) → ops.Pairwise (fun a b => a.1 ≤ b.1) →
    History sizes config (ops.foldl nextCall x).1 (ops.foldl nextCall x).2
  | [], _, h, _, _ => h
  | o :: ops, x, h, hnow, hsorted => by
    obtain ⟨hfirst, hsorted⟩ := List.pairwise_cons.mp hsorted
    refine history_foldl ops _ (h.cons (fun call hcall => hnow call hcall o List.mem_cons_self) o.2) ?_
      hsorted
    refine List.forall_mem_cons.mpr ⟨hfirst, fun call hcall o' ho' => ?_⟩
    exact hnow call hcall o' (List.mem_cons_of_mem _ ho')

/-- A cache with room for two entries. -/
def smallConfig : CacheConfig := { maxMemoryBytes := 160, numShards := 1 }

def smallHistory (ops : List (ℕ × Op)) : List Call × Cache :=
  ops.foldl nextCall ([], Cache.create ⟨0, 0, 0, 0⟩ smallConfig)

theorem history_small {ops : List (ℕ × Op)} (h : ops.Pairwise fun a b => a.1 ≤ b.1) :
    History ⟨0, 0, 0, 0⟩ smallConfig (smallHistory ops).1 (smallHistory ops).2 :=
  history_foldl ops _ .nil (by simp) h

/-- The address of a name, for five minutes. -/
def insertAddress (n : Name) (trust : TrustRank) : Op :=
  .insert { name := n } [{ name := n, ttl := 300, rdata := .a 1 }] trust 300 false

/-- An entry is replaced by a more trusted one, a less trusted one is rejected, and the second of two
further names evicts the first entry. -/
def fiveInserts : List (ℕ × Op) :=
  [(0, insertAddress {} .authority), (1, insertAddress {} .answer), (2, insertAddress {} .authority),
    (3, insertAddress ⟨[[97]], [[97]]⟩ .answer), (4, insertAddress ⟨[[98]], [[98]]⟩ .answer)]

/-- The same configuration and number of shards. -/
structure SameFrame (c c' : Cache) : Prop where
  sizes : c'.sizes = c.sizes
  config : c'.config = c.config
  length : c'.shards.length = c.shards.length

theorem sameFrame_setShard (c : Cache) (key : CacheKey) (s : Shard) :
    SameFrame c (c.setShard key s) := ⟨rfl, rfl, List.length_set⟩

theorem sameFrame_evict (c : Cache) (key : CacheKey) : SameFrame c (c.evict key) := by
  unfold Cache.evict
  dsimp only
  split
  · exact sameFrame_setShard ..
  · exact ⟨rfl, rfl, rfl⟩

theorem perform_frame (c : Cache) (now : ℕ) (op : Op) : SameFrame c (perform c now op) := by
  cases op with
  | insert key records trust ttl negative =>
    show SameFrame c (c.insert now key records trust ttl negative)
    rcases insert_cases c now key records trust ttl negative with
      ⟨-, h⟩ | ⟨-, -, h⟩ | ⟨-, -, h⟩ <;> rw [h]
    · exact ⟨rfl, rfl, rfl⟩
    · exact sameFrame_evict c key
    · exact sameFrame_setShard ..
  | lookup key =>
    show SameFrame c (c.lookup now key).2
    unfold Cache.lookup
    dsimp only
    split
    · exact ⟨rfl, rfl, rfl⟩
    · split_ifs
      · exact ⟨rfl, rfl, rfl⟩
      · exact ⟨rfl, rfl, List.length_set⟩
  | evict key => exact sameFrame_evict c key
  | flush => exact ⟨rfl, rfl, List.length_map ..⟩

theorem perform_sharded {op : Op} (h : Sharded c) : Sharded (perform c now op) := by
  obtain ⟨-, hconfig, hlength⟩ := perform_frame c now op
  unfold Sharded
  rw [hconfig, hlength]
  exact h

theorem sharded_create (sizes : Sizes) (config : CacheConfig) :
    Sharded (Cache.create sizes config) := List.length_replicate

end DNSentinel.Store.Calls
