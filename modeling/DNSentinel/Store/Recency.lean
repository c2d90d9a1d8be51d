import DNSentinel.Store.Accounting

/-! # Eviction is least recently used first

A lookup that hits and an insertion that is written touch a key. Each shard's list is in the order of the
last touches, and an insertion that has to make room evicts the shortest run from its back that does. -/

namespace DNSentinel.Store.Recency

open DNSentinel.Types Lib.IndexedLru Model Contents Calls Accounting

variable {c c' : Cache} {k key : CacheKey} {now : ℕ} {records : List RR} {trust : TrustRank}
  {ttl : UInt32} {negative : Bool} {calls : List Call} {call : Call} {s s' : Shard}
  {n : Slot CacheKey Cell} {i : ℕ}

/-! ### Touches -/

/-- The call is a hit for `k`, or writes an entry for it. -/
def touches (k : CacheKey) (call : Call) : Bool :=
  match call.op with
  | .insert key records trust ttl _ =>
    key == k && (accepts call.before call.now key trust ttl && !oversized call.before key records)
  | .lookup key => key == k && (call.before.lookup call.now key).1.isSome
  | .evict _ => false
  | .flush => false

/-- When `k` was touched last, counting the calls from 1; 0 if never. The newest call comes first. -/
def lastTouch (k : CacheKey) : List Call → ℕ
  | [] => 0
  | call :: calls => if touches k call then calls.length + 1 else lastTouch k calls

theorem lastTouch_le (k : CacheKey) : ∀ calls : List Call, lastTouch k calls ≤ calls.length
  | [] => le_rfl
  | call :: calls => by
    unfold lastTouch
    split_ifs
    · exact le_rfl
    · exact (lastTouch_le k calls).trans (Nat.le_succ _)

theorem lastTouch_cons_touched (h : touches k call = true) :
    lastTouch k (call :: calls) = calls.length + 1 := if_pos h

theorem lastTouch_cons_untouched (h : touches k call = false) :
    lastTouch k (call :: calls) = lastTouch k calls := if_neg (by simp [h])

/-- The keys are in the order of their last touches, the latest first. -/
def InOrder (calls : List Call) (keys : List CacheKey) : Prop :=
  keys.Pairwise fun a b => lastTouch b calls < lastTouch a calls

def shardKeys (s : Shard) : List CacheKey := s.lru.slots.map Slot.key

/-- The order stays if nothing is touched, whatever is taken out. -/
theorem InOrder.untouched {keys keys' : List CacheKey} (h : InOrder calls keys) (hsub : keys'.Sublist keys)
    (hnone : ∀ k ∈ keys', touches k call = false) : InOrder (call :: calls) keys' := by
  refine (h.sublist hsub).imp_of_mem fun ha hb hlt => ?_
  rwa [lastTouch_cons_untouched (hnone _ ha), lastTouch_cons_untouched (hnone _ hb)]

theorem InOrder.touched {keys rest : List CacheKey} (h : InOrder calls keys) (hsub : rest.Sublist keys)
    (hkey : touches k call = true) (hnone : ∀ k ∈ rest, touches k call = false) :
    InOrder (call :: calls) (k :: rest) := by
  refine List.pairwise_cons.mpr ⟨fun b hb => ?_, h.untouched hsub hnone⟩
  rw [lastTouch_cons_touched hkey, lastTouch_cons_untouched (hnone b hb)]
  exact Nat.lt_succ_of_le (lastTouch_le b calls)

/-! ### Every call keeps the order -/

/-- Every shard's list is in the order of the last touches. -/
def Ordered (calls : List Call) (c : Cache) : Prop :=
  ∀ (i : ℕ) s, c.shards[i]? = some s → InOrder calls (shardKeys s)

theorem shardKeys_shard (h : Ordered calls c) (hok : CacheOk c) (key : CacheKey) :
    InOrder calls (shardKeys (c.shard key)) := by
  have hlt := shardFor_lt (k := key) hok.sharded
  refine h (c.shardFor key) _ ?_
  rw [List.getElem?_eq_getElem hlt, Cache.shard, List.getD_eq_getElem _ _ hlt]

/-- A call that touches no key leaves the order of the shards it does not change. -/
theorem Ordered.untouched (h : Ordered calls c) (hnone : ∀ k, touches k call = false) :
    Ordered (call :: calls) c :=
  fun i s hs => (h i s hs).untouched (List.Sublist.refl _) fun k _ => hnone k

theorem Ordered.setShard (h : Ordered calls c) (hok : CacheOk c)
    (honly : ∀ k, touches k call = true → (key == k) = true)
    (hs : InOrder (call :: calls) (shardKeys s)) : Ordered (call :: calls) (c.setShard key s) := by
  intro i s' hs'
  have hget : (c.shards.set (c.shardFor key) s)[i]? = some s' := hs'
  rw [List.getElem?_set] at hget
  by_cases hi : c.shardFor key = i
  · rw [if_pos hi] at hget
    split_ifs at hget
    obtain rfl := Option.some.inj hget
    exact hs
  · rw [if_neg hi] at hget
    -- the keys of another shard are other keys
    refine (h i s' hget).untouched (List.Sublist.refl _) fun k hk => ?_
    obtain ⟨n, hn, rfl⟩ := List.mem_map.mp hk
    have hhome := ((hok.shards i s' hget).nodes n hn).home
    by_contra htouched
    rw [Bool.not_eq_false] at htouched
    exact hi ((shardFor_congr (honly _ htouched)).trans hhome)

theorem shardKeys_erase (hn : n ∈ s.lru.slots) : (shardKeys (s.erase n)).Sublist (shardKeys s) := by
  unfold shardKeys Shard.erase
  rw [Lru.slots_erase hn]
  exact List.filter_sublist.map _

theorem Ordered.evict (h : Ordered calls c) (hok : CacheOk c) (key : CacheKey)
    (hnone : ∀ k, touches k call = false) : Ordered (call :: calls) (c.evict key) := by
  unfold Cache.evict
  dsimp only
  split
  · next n hf =>
    refine h.setShard hok (fun k hk => absurd hk (by simp [hnone k])) ?_
    exact (shardKeys_shard h hok key).untouched (shardKeys_erase (Lru.find?_some hf).1) fun k _ => hnone k
  · exact h.untouched hnone

/-- The list with the slot of `key` in front, the others in order. -/
theorem InOrder.moved (h : InOrder calls (shardKeys s)) (hn : (n.key == key) = true)
    (htouch : ∀ k, touches k call = (key == k)) :
    InOrder (call :: calls)
      ((n :: s.lru.slots.filter fun m => !(m.key == key)).map Slot.key) := by
  rw [List.map_cons]
  refine InOrder.touched h (List.filter_sublist.map _) ?_ fun k hk => ?_
  · rw [htouch]
    exact PartialEquivBEq.symm hn
  · obtain ⟨m, hm, rfl⟩ := List.mem_map.mp hk
    rw [htouch, BEq.comm]
    simpa using (List.mem_filter.mp hm).2

theorem filter_key_congr (h : (k == key) = true) (slots : List (Slot CacheKey Cell)) :
    slots.filter (fun m => !(m.key == k)) = slots.filter fun m => !(m.key == key) :=
  List.filter_congr fun m _ => by rw [BEq.congr_right h]

/-- The written shard: the new entry in front, and the others in order. -/
theorem written_slots (c : Cache) (now : ℕ) (key : CacheKey) (records : List RR) (trust : TrustRank)
    (ttl : UInt32) (negative : Bool) : ∃ n : Slot CacheKey Cell, (n.key == key) = true ∧
      n.val = ⟨c.newEntry now records trust ttl negative, entryBytes c.sizes key records⟩ ∧
      (written c now key records trust ttl negative).lru.slots =
        n :: (c.shard key).lru.slots.filter fun m => !(m.key == key) := by
  cases hf : (c.shard key).lru.find? key with
  | some n =>
    obtain ⟨hmem, hkey⟩ := Lru.find?_some hf
    rw [written_of_some hf]
    refine ⟨⟨n.id, n.key, ⟨c.newEntry now records trust ttl negative,
      entryBytes c.sizes key records⟩⟩, hkey, rfl, ?_⟩
    rw [← filter_key_congr hkey]
    exact Lru.slots_setVal_toFront hmem _
  | none =>
    rw [written_of_none hf]
    refine ⟨⟨(c.shard key).lru.nextId, key, _⟩, BEq.rfl, rfl, ?_⟩
    have hall : (c.shard key).lru.slots.filter (fun m => !(m.key == key)) = (c.shard key).lru.slots :=
      List.filter_eq_self.mpr fun m hm => by simp [Lru.find?_none hf m hm]
    rw [hall]
    rfl

theorem lookup_hit (h : (c.lookup now key).1.isSome = true) : ∃ n cell,
    (c.shard key).lru.find? key = some n ∧ (c.lookup now key).2.shards =
      (c.setShard key
        { c.shard key with lru := ((c.shard key).lru.toFront n.id).setVal n.id cell }).shards := by
  unfold Cache.lookup at h ⊢
  dsimp only at h ⊢
  split at h
  · cases h
  · next n hf =>
    split_ifs at h ⊢
    · cases h
    · exact ⟨n, _, hf, rfl⟩

theorem Ordered.lookup (h : Ordered calls c) (hok : CacheOk c) (now : ℕ) (key : CacheKey) :
    Ordered (⟨c, now, .lookup key⟩ :: calls) (c.lookup now key).2 := by
  have htouch (k : CacheKey) :
      touches k ⟨c, now, .lookup key⟩ = (key == k && (c.lookup now key).1.isSome) := rfl
  cases hhit : (c.lookup now key).1.isSome with
  | false =>
    have hnone (k : CacheKey) : touches k ⟨c, now, .lookup key⟩ = false := by rw [htouch, hhit, Bool.and_false]
    rw [lookup_missed (Option.isSome_eq_false_iff.mp hhit |> Option.isNone_iff_eq_none.mp)]
    exact h.untouched hnone
  | true =>
    obtain ⟨n, cell, hf, hshards⟩ := lookup_hit hhit
    obtain ⟨hmem, hkey⟩ := Lru.find?_some hf
    have hexact (k : CacheKey) : touches k ⟨c, now, .lookup key⟩ = (key == k) := by
      rw [htouch, hhit, Bool.and_true]
    have hslots := Lru.slots_toFront_setVal hmem cell
    rw [filter_key_congr hkey] at hslots
    have hset : Ordered (⟨c, now, .lookup key⟩ :: calls) (c.setShard key
        { c.shard key with lru := ((c.shard key).lru.toFront n.id).setVal n.id cell }) := by
      refine h.setShard hok (fun k hk => (hexact k).symm.trans hk) ?_
      unfold shardKeys
      rw [hslots]
      exact (shardKeys_shard h hok key).moved hkey hexact
    intro i s hs
    rw [hshards] at hs
    exact hset i s hs

theorem Ordered.insert (h : Ordered calls c) (hok : CacheOk c) (now : ℕ) (key : CacheKey)
    (records : List RR) (trust : TrustRank) (ttl : UInt32) (negative : Bool) :
    Ordered (⟨c, now, .insert key records trust ttl negative⟩ :: calls)
      (c.insert now key records trust ttl negative) := by
  have htouch (k : CacheKey) : touches k ⟨c, now, .insert key records trust ttl negative⟩ =
      (key == k && (accepts c now key trust ttl && !oversized c key records)) := rfl
  rcases insert_cases c now key records trust ttl negative with
    ⟨haccepts, heq⟩ | ⟨haccepts, hbig, heq⟩ | ⟨haccepts, hfits, heq⟩
  · rw [heq]
    exact h.untouched fun k => by simp [htouch, haccepts]
  · rw [heq]
    exact h.evict hok key fun k => by simp [htouch, hbig]
  · rw [heq]
    have hexact (k : CacheKey) : touches k ⟨c, now, .insert key records trust ttl negative⟩ =
        (key == k) := by simp [htouch, haccepts, hfits]
    refine h.setShard hok (fun k hk => (hexact k).symm.trans hk) ?_
    obtain ⟨n, hkey, -, hslots⟩ := written_slots c now key records trust ttl negative
    have hmoved := (shardKeys_shard h hok key).moved hkey hexact
    rw [← hslots] at hmoved
    exact hmoved.sublist ((evictBack_slots _ _).sublist.map _)

theorem Ordered.perform (h : Ordered calls c) (hok : CacheOk c) (now : ℕ) (op : Op) :
    Ordered (⟨c, now, op⟩ :: calls) (perform c now op) := by
  cases op with
  | insert key records trust ttl negative => exact h.insert hok now key records trust ttl negative
  | lookup key => exact h.lookup hok now key
  | evict key => exact h.evict hok key fun _ => rfl
  | flush =>
    intro i s hs
    have hget : (c.shards.map fun _ => ({} : Shard))[i]? = some s := hs
    rw [List.getElem?_map] at hget
    obtain ⟨-, -, rfl⟩ := Option.map_eq_some_iff.mp hget
    exact .nil

/-! ### The run that is evicted -/

/-- The eviction loop has not gone too far: with the last node that it took out, the shard would be over its
budget. -/
theorem evictBack_needed (budget : ℕ) : ∀ (fuel : ℕ) (s : Shard), Counted s →
    ∀ n rest, (s.evictBack budget fuel).lru.slots ++ n :: rest = s.lru.slots →
      budget < totalBytes ((s.evictBack budget fuel).lru.slots ++ [n])
  | 0, s, _, n, rest, h => absurd h (by simp [Shard.evictBack])
  | fuel + 1, s, hcounted, n, rest, h => by
    unfold Shard.evictBack at h ⊢
    split_ifs at h ⊢ with hover
    · split at h
      · next m hlast =>
        obtain ⟨init, hinit⟩ := List.getLast?_eq_some_iff.mp hlast
        have herase : (s.erase m).lru.slots = init := Lru.slots_erase_last hinit
        have hrec := evictBack_needed budget fuel (s.erase m) (hcounted.erase (List.mem_of_getLast? hlast))
        rw [herase] at hrec
        -- either `m` was the last one taken out, or another one was after it
        rcases List.eq_nil_or_concat' rest with rfl | ⟨rest', x, rfl⟩
        · have hall : ((s.erase m).evictBack budget fuel).lru.slots ++ [n] = s.lru.slots := h
          rw [hall, ← hcounted]
          exact hover.1
        · rw [hinit, ← List.cons_append, ← List.append_assoc] at h
          obtain ⟨hshorter, -⟩ := List.append_inj' h rfl
          exact hrec n rest' hshorter
      · exact absurd h (by simp)
    · exact absurd h (by simp)

theorem totalBytes_append (xs ys : List (Slot CacheKey Cell)) :
    totalBytes (xs ++ ys) = totalBytes xs + totalBytes ys := by
  unfold totalBytes
  rw [List.map_append, List.sum_append]

/-- No shorter run from the back would do. -/
theorem evicted_shortest (h : Counted s) {kept gone : List (Slot CacheKey Cell)}
    (hsplit : kept ++ gone = s.lru.slots) (hfits : totalBytes kept ≤ c.shardBudget) :
    (evicted c s).length ≤ gone.length := by
  have htrimmed := trimmed_append_evicted c s
  by_contra hshorter
  rw [not_le] at hshorter
  cases hevicted : evicted c s with
  | nil => simp [hevicted] at hshorter
  | cons n rest =>
    rw [hevicted] at htrimmed hshorter
    have hneeded := evictBack_needed _ _ s h n rest htrimmed
    have hlength : (trimmed c s).lru.slots.length + (rest.length + 1) = kept.length + gone.length := by
      have hlengths := congrArg List.length (htrimmed.trans hsplit.symm)
      simpa using hlengths
    -- what is kept begins with what is left and the first one evicted
    have hbegins : (trimmed c s).lru.slots ++ [n] <+: kept := by
      have hlong : (trimmed c s).lru.slots ++ [n] <+: s.lru.slots := ⟨rest, by simpa using htrimmed⟩
      have hkept : kept <+: s.lru.slots := ⟨gone, hsplit⟩
      refine List.prefix_of_prefix_length_le hlong hkept ?_
      simp only [List.length_append, List.length_cons, List.length_nil] at hshorter ⊢
      omega
    obtain ⟨more, rfl⟩ := hbegins
    rw [totalBytes_append] at hfits
    have hover : c.shardBudget < totalBytes ((trimmed c s).lru.slots ++ [n]) := hneeded
    omega

/-- What an insertion that is written does to the shard of its key: the new entry goes to the front, and
the shortest run from the back that brings the shard within its budget is evicted. -/
structure EvictsLru (calls : List Call) (c : Cache) (now : ℕ) (key : CacheKey) (records : List RR)
    (trust : TrustRank) (ttl : UInt32) (negative : Bool) (kept gone : List (Slot CacheKey Cell)) : Prop where
  left : ((c.insert now key records trust ttl negative).shard key).lru.slots = kept
  front : ∃ n : Slot CacheKey Cell, (n.key == key) = true ∧
    n.val = ⟨c.newEntry now records trust ttl negative, entryBytes c.sizes key records⟩ ∧
    kept ++ gone = n :: (c.shard key).lru.slots.filter fun m => !(m.key == key)
  within : totalBytes kept ≤ c.shardBudget
  shortest : ∀ kept' gone', kept' ++ gone' = kept ++ gone → totalBytes kept' ≤ c.shardBudget →
    gone.length ≤ gone'.length
  spares : ∀ m ∈ gone, (m.key == key) = false
  least : ∀ m ∈ gone, ∀ m' ∈ kept,
    lastTouch m.key (⟨c, now, .insert key records trust ttl negative⟩ :: calls) <
      lastTouch m'.key (⟨c, now, .insert key records trust ttl negative⟩ :: calls)

theorem ordered_history {sizes : Sizes} {config : CacheConfig} (h : History sizes config calls c) :
    CacheOk c ∧ Ordered calls c := by
  induction h with
  | nil =>
    refine ⟨cacheOk_create sizes config, fun i s hs => ?_⟩
    have hget : (List.replicate (max config.numShards 1) ({} : Shard))[i]? = some s := hs
    rw [List.getElem?_replicate] at hget
    split_ifs at hget
    obtain rfl := Option.some.inj hget
    exact .nil
  | cons _ _ op ih => exact ⟨ih.1.perform _ op, ih.2.perform ih.1 _ op⟩

/-- **Eviction is exactly least recently used.** After every history, each shard's list is in the order of
the last touches, and an insertion that is written evicts the shortest run from its back that makes room,
never the entry just written, and never an entry touched later than one that is kept. -/
theorem eviction_lru {sizes : Sizes} {config : CacheConfig} (h : History sizes config calls c) :
    (∀ s ∈ c.shards, s.lru.slots.Pairwise fun a b => lastTouch b.key calls < lastTouch a.key calls) ∧
    ∀ now key records trust ttl negative, accepts c now key trust ttl = true →
      oversized c key records = false →
      ∃ kept gone, EvictsLru calls c now key records trust ttl negative kept gone := by
  obtain ⟨hok, hordered⟩ := ordered_history h
  refine ⟨fun s hs => ?_, fun now key records trust ttl negative haccepts hfits => ?_⟩
  · obtain ⟨i, hi⟩ := List.mem_iff_getElem?.mp hs
    exact List.pairwise_map.mp (hordered i s hi)
  · have hinsert : c.insert now key records trust ttl negative = _ := insert_written haccepts hfits
    set w := written c now key records trust ttl negative
    obtain ⟨hcounted, -⟩ := written_spec hok now key records trust ttl negative
    obtain ⟨n, hkey, hval, hslots⟩ := written_slots c now key records trust ttl negative
    have hsplit := trimmed_append_evicted c w
    have hshard : (c.insert now key records trust ttl negative).shard key = trimmed c w := by
      rw [hinsert, shard_setShard hok.sharded, if_pos rfl]
    have hexact (k : CacheKey) : touches k ⟨c, now, .insert key records trust ttl negative⟩ =
        (key == k) := by simp [touches, haccepts, hfits]
    have hmoved := (shardKeys_shard hordered hok key).moved hkey hexact
    rw [← hslots, ← hsplit] at hmoved
    refine ⟨_, _, congrArg (fun s => s.lru.slots) hshard, ⟨n, hkey, hval, hsplit.trans hslots⟩, ?_, ?_, ?_, ?_⟩
    · have htrimmed : Counted (trimmed c w) := hcounted.evictBack _
      rw [← htrimmed]
      exact (ShardOk.trimmed hok now trust ttl negative hfits).within
    · intro kept' gone' hother hfits'
      exact evicted_shortest hcounted (hother.trans hsplit) hfits'
    · exact fun m hm => by simpa using List.any_eq_false.mp written_kept m hm
    · intro m hm m' hm'
      rw [List.map_append] at hmoved
      exact (List.pairwise_append.mp hmoved).2.2 _ (List.mem_map_of_mem hm') _ (List.mem_map_of_mem hm)

/-- Two entries, of which the first is looked up. -/
def twoEntries : List (ℕ × Op) :=
  [(0, insertAddress {} .answer), (0, insertAddress ⟨[[97]], [[97]]⟩ .answer),
    (0, .lookup { name := {} })]

/-- A third entry evicts the second. -/
theorem eviction_lru_third : ∃ kept gone,
    History ⟨0, 0, 0, 0⟩ smallConfig (smallHistory twoEntries).1 (smallHistory twoEntries).2 ∧
    EvictsLru (smallHistory twoEntries).1 (smallHistory twoEntries).2 0
      { name := ⟨[[98]], [[98]]⟩ } [] .answer 300 false kept gone ∧
    kept.map (fun m => m.key.name.labels) = [[[98]], []] ∧ gone.length = 1 := by
  have h := history_small (by decide : twoEntries.Pairwise fun a b => a.1 ≤ b.1)
  obtain ⟨kept, gone, hevicts⟩ := (eviction_lru h).2 0 { name := ⟨[[98]], [[98]]⟩ } [] .answer 300 false
    (by decide +kernel) (by decide +kernel)
  have hkept : kept.map (fun m => m.key.name.labels) = [[[98]], []] := by
    rw [← hevicts.left]
    decide +kernel
  refine ⟨kept, gone, h, hevicts, hkept, ?_⟩
  obtain ⟨n, -, -, hall⟩ := hevicts.front
  have htwo : kept.length = 2 := by
    rw [← List.length_map (f := fun m : Slot CacheKey Cell => m.key.name.labels), hkept]
    rfl
  have hothers : (((smallHistory twoEntries).2.shard { name := ⟨[[98]], [[98]]⟩ }).lru.slots.filter fun m =>
      !(m.key == ({ name := ⟨[[98]], [[98]]⟩ } : CacheKey))).length = 2 := by
    decide +kernel
  have hlengths := congrArg List.length hall
  have hsum : kept.length + gone.length = 2 + 1 := by
    rw [← List.length_append, hlengths, List.length_cons]
    exact congrArg (· + 1) hothers
  omega

end DNSentinel.Store.Recency
