import DNSentinel.Store.Accounting

/-! # The cache as an expiring map ranked by trust

What a map of that kind has for a key is a function of the calls made: the entry of the last accepted
insertion for the key, unless a call has removed it since (`remembered`). The cache refines it
(`content_eq_recall`): it has exactly this entry, and returns it until it expires. -/

namespace DNSentinel.Store.Recall

open DNSentinel.Types Lib.IndexedLru Model Contents Calls Accounting

variable {c : Cache} {k key : CacheKey} {now : ℕ} {records : List RR} {trust : TrustRank}
  {ttl : UInt32} {negative : Bool} {calls : List Call}

/-! ### The abstract map -/

/-- The call is an accepted insertion for `k`. -/
def acceptedFor (k : CacheKey) (call : Call) : Bool :=
  match call.op with
  | .insert key _ trust ttl _ => key == k && accepts call.before call.now key trust ttl
  | _ => false

/-- The call takes the entry for `k` out: it evicts it, flushes the cache, inserts an entry for `k`
that is too large, or makes room for another entry. -/
def removes (k : CacheKey) (call : Call) : Bool :=
  match call.op with
  | .insert key records trust ttl negative =>
    accepts call.before call.now key trust ttl &&
      if oversized call.before key records then key == k
      else (evicted call.before (written call.before call.now key records trust ttl negative)).any
        fun n => n.key == k
  | .lookup _ => false
  | .evict key => key == k
  | .flush => true

/-- The entry a call inserts. -/
def entryOf (call : Call) : Option CacheEntry :=
  match call.op with
  | .insert _ records trust ttl negative =>
    some (call.before.newEntry call.now records trust ttl negative)
  | _ => none

theorem acceptedFor_insert : acceptedFor k ⟨c, now, .insert key records trust ttl negative⟩ =
    (key == k && accepts c now key trust ttl) := rfl

theorem removes_insert : removes k ⟨c, now, .insert key records trust ttl negative⟩ =
    (accepts c now key trust ttl && if oversized c key records then key == k
      else (evicted c (written c now key records trust ttl negative)).any fun n => n.key == k) := rfl

/-- What is known for `k` after these calls, newest first. -/
def remembered (k : CacheKey) : List Call → Option CacheEntry
  | [] => none
  | call :: calls =>
    if removes k call then none else if acceptedFor k call then entryOf call else remembered k calls

/-- What is known is the last accepted insertion. -/
theorem remembered_some {e : CacheEntry} : ∀ {calls : List Call}, remembered k calls = some e →
    ∃ i, calls.find? (acceptedFor k) = some i ∧ entryOf i = some e
  | [], h => by simp [remembered] at h
  | call :: calls, h => by
    unfold remembered at h
    split_ifs at h with hgone haccepted
    · exact ⟨call, List.find?_cons_of_pos haccepted, h⟩
    · obtain ⟨i, hi, he⟩ := remembered_some h
      exact ⟨i, by rwa [List.find?_cons_of_neg haccepted], he⟩

theorem entryOf_acceptedFor {call : Call} (h : acceptedFor k call = true) :
    ∃ key records trust ttl negative, call.op = .insert key records trust ttl negative ∧
      (key == k) = true ∧ entryOf call = some (call.before.newEntry call.now records trust ttl negative) := by
  obtain ⟨before, now, op⟩ := call
  cases op with
  | insert key records trust ttl negative =>
    have h : (key == k && accepts before now key trust ttl) = true := h
    exact ⟨key, records, trust, ttl, negative, rfl, (Bool.and_eq_true_iff.mp h).1, rfl⟩
  | lookup key | evict key | flush => simp [acceptedFor] at h

/-- If nothing is known although an insertion was accepted, that one or a later call removed it. -/
theorem remembered_none {i : Call} : ∀ {calls : List Call}, remembered k calls = none →
    calls.find? (acceptedFor k) = some i →
    ∃ newer older, calls = newer ++ i :: older ∧ ∃ call ∈ newer ++ [i], removes k call = true
  | [], _, hi => by simp at hi
  | call :: calls, h, hi => by
    unfold remembered at h
    by_cases haccepted : acceptedFor k call = true
    · rw [List.find?_cons_of_pos haccepted] at hi
      obtain rfl := Option.some.inj hi
      refine ⟨[], calls, rfl, call, by simp, ?_⟩
      by_contra hstays
      obtain ⟨_, _, _, _, _, -, -, he⟩ := entryOf_acceptedFor haccepted
      rw [if_neg hstays, if_pos haccepted, he] at h
      exact absurd h (by simp)
    · rw [List.find?_cons_of_neg haccepted] at hi
      by_cases hgone : removes k call = true
      · obtain ⟨older, newer, hsplit⟩ := List.append_of_mem (List.mem_of_find?_eq_some hi)
        exact ⟨call :: older, newer, by rw [hsplit]; rfl, call, by simp, hgone⟩
      · rw [if_neg hgone, if_neg haccepted] at h
        obtain ⟨newer, older, hsplit, x, hx, hremoves⟩ := remembered_none h hi
        exact ⟨call :: newer, older, by rw [hsplit]; rfl, x, List.mem_cons_of_mem _ hx, hremoves⟩

/-! ### One call -/

theorem content_evict (h : Sharded c) :
    content (c.evict key) k = if key == k then none else content c k := by
  unfold Cache.evict
  dsimp only
  cases hf : (c.shard key).lru.find? key with
  | none =>
    dsimp only
    split_ifs with hkey
    · rw [← content_congr hkey]
      unfold content
      rw [hf]
      rfl
    · rfl
  | some n =>
    obtain ⟨hmem, hnkey⟩ := Lru.find?_some hf
    have hshard : c.shardFor key = c.shardFor k → c.shard key = c.shard k := fun hfor => by
      unfold Cache.shard
      rw [hfor]
    have hfind : ((c.shard key).erase n).lru.find? k =
        if n.key == k then none else (c.shard key).lru.find? k := Lru.find?_erase hmem
    dsimp only
    rw [content_setShard h, hfind, BEq.congr_left hnkey]
    by_cases hkey : (key == k) = true
    · rw [if_pos hkey, if_pos hkey, if_pos (shardFor_congr hkey)]
      rfl
    · rw [if_neg hkey, if_neg hkey]
      split_ifs with hfor
      · rw [hshard hfor]
        rfl
      · rfl

theorem content_lookup (h : Sharded c) : content (c.lookup now key).2 k = content c k := by
  unfold Cache.lookup
  dsimp only
  split
  · rfl
  · next n hf =>
    split_ifs
    · rfl
    · obtain ⟨hmem, -⟩ := Lru.find?_some hf
      show content (c.setShard key _) k = content c k
      rw [content_setShard h]
      split_ifs with hfor
      · unfold content Cache.shard
        rw [← hfor, Lru.find?_setVal, Lru.find?_toFront, Option.map_map]
        refine Option.map_congr fun m hm => ?_
        -- the node that was hit: only its hit count has changed
        by_cases hid : m.id = n.id
        · have hm' := (Lru.find?_some hm).1
          obtain rfl := (c.shard key).lru.coherent.eq_of_id_eq hm' hmem hid
          simp only [Function.comp_apply, Slot.assign, if_true]
          rfl
        · simp only [Function.comp_apply, Slot.assign, if_neg hid]
      · rfl

theorem evicted_home (h : CacheOk c) (hgone : ((evicted c (written c now key records trust ttl
    negative)).any fun n => n.key == k) = true) : c.shardFor key = c.shardFor k := by
  obtain ⟨n, hn, hkey⟩ := List.any_eq_true.mp hgone
  have hmem := List.mem_of_mem_drop hn
  have hhome := ((written_spec h now key records trust ttl negative).2 n hmem).home
  rw [← hhome]
  exact shardFor_congr hkey

/-- **What a call does** to the entry for a key. -/
theorem content_perform (h : CacheOk c) (now : ℕ) (op : Op) : content (perform c now op) k =
    if removes k ⟨c, now, op⟩ then none
    else if acceptedFor k ⟨c, now, op⟩ then entryOf ⟨c, now, op⟩ else content c k := by
  cases op with
  | lookup key => exact content_lookup h.sharded
  | evict key => exact content_evict h.sharded
  | flush =>
    show content c.flush k = none
    cases hcontent : content c.flush k with
    | none => rfl
    | some e =>
      obtain ⟨n, hn, he⟩ := Option.map_eq_some_iff.mp hcontent
      exact absurd (held_of_mem_shard (Lru.find?_some hn).1) not_held_flush
  | insert key records trust ttl negative =>
    show content (c.insert now key records trust ttl negative) k = _
    rw [removes_insert, acceptedFor_insert]
    rcases insert_cases c now key records trust ttl negative with
      ⟨haccepts, heq⟩ | ⟨haccepts, hbig, heq⟩ | ⟨haccepts, hfits, heq⟩ <;> rw [heq, haccepts]
    · simp
    · rw [content_evict h.sharded, hbig]
      simp only [Bool.true_and, if_true, Bool.and_true]
      split_ifs <;> rfl
    · rw [content_setShard h.sharded, hfits, find?_trimmed]
      simp only [Bool.true_and, Bool.false_eq_true, if_false, Bool.and_true]
      by_cases hgone : ((evicted c (written c now key records trust ttl negative)).any
          fun n => n.key == k) = true
      · rw [if_pos hgone, if_pos hgone, if_pos (evicted_home h hgone)]
        rfl
      · rw [if_neg hgone, if_neg hgone, find?_written, BEq.comm]
        by_cases hkey : (key == k) = true
        · rw [if_pos hkey, if_pos hkey, if_pos (shardFor_congr hkey)]
          rfl
        · rw [if_neg hkey, if_neg hkey]
          split_ifs with hfor
          · unfold content Cache.shard
            rw [hfor]
          · rfl

/-- **The cache refines the map.** -/
theorem content_eq_recall {sizes : Sizes} {config : CacheConfig} (h : History sizes config calls c)
    (k : CacheKey) : content c k = remembered k calls := by
  induction h with
  | nil =>
    show content (Cache.create sizes config) k = none
    cases hcontent : content (Cache.create sizes config) k with
    | none => rfl
    | some e =>
      obtain ⟨n, hn, he⟩ := Option.map_eq_some_iff.mp hcontent
      exact absurd (held_of_mem_shard (Lru.find?_some hn).1)
        (not_held_create sizes config _ _)
  | @cons calls c hcalls now hnow op ih =>
    have hok : CacheOk c :=
      hcalls.keeps (cacheOk_create sizes config) fun _ now op hc => hc.perform now op
    unfold remembered
    rw [content_perform hok, ih]

/-! ### What users see -/

/-- When the entry of an insertion expires. -/
def expiry (i : Call) (ttl : UInt32) : ℕ := i.now + (i.before.effectiveTtl ttl).toNat * kSecond

/-- Why the entry for `k` is gone before it expires. -/
inductive Removal (k : CacheKey) : Call → Prop
  | evict {c : Cache} {now : ℕ} {key : CacheKey} (hkey : (key == k) = true) :
      Removal k ⟨c, now, .evict key⟩
  | flush {c : Cache} {now : ℕ} : Removal k ⟨c, now, .flush⟩
  /-- an accepted insertion that exceeds the budget of the shard -/
  | oversized {c : Cache} {now : ℕ} {key : CacheKey} {records : List RR} {trust : TrustRank}
      {ttl : UInt32} {negative : Bool} (hkey : (key == k) = true)
      (haccepts : accepts c now key trust ttl = true)
      (hbig : c.shardBudget < entryBytes c.sizes key records) :
      Removal k ⟨c, now, .insert key records trust ttl negative⟩
  /-- among the least recently used, when an insertion takes the shard over its budget -/
  | space {c : Cache} {now : ℕ} {key : CacheKey} {records : List RR} {trust : TrustRank}
      {ttl : UInt32} {negative : Bool} (haccepts : accepts c now key trust ttl = true)
      (hover : c.shardBudget < (written c now key records trust ttl negative).bytes)
      {n : Slot CacheKey Cell}
      (hn : n ∈ evicted c (written c now key records trust ttl negative)) (hkey : (n.key == k) = true) :
      Removal k ⟨c, now, .insert key records trust ttl negative⟩

theorem removal_of_removes {call : Call} (h : removes k call = true) : Removal k call := by
  obtain ⟨before, now, op⟩ := call
  cases op with
  | lookup key => simp [removes] at h
  | evict key => exact .evict h
  | flush => exact .flush
  | insert key records trust ttl negative =>
    rw [removes_insert, Bool.and_eq_true] at h
    obtain ⟨haccepts, h⟩ := h
    split_ifs at h with hbig
    · exact .oversized h haccepts (of_decide_eq_true hbig)
    · obtain ⟨n, hn, hkey⟩ := List.any_eq_true.mp h
      refine .space haccepts (Nat.lt_of_not_le fun hle => ?_) hn hkey
      rw [evicted_eq_nil hle] at hn
      exact List.not_mem_nil hn

/-- What the cache does at time `t`, in terms of the calls made before. -/
structure Refines (calls : List Call) (c : Cache) (t : ℕ) : Prop where
  /-- a hit is the last accepted insertion for the key, with the whole seconds left as TTL -/
  hit : ∀ k e, (c.lookup t k).1 = some e → ∃ i key records trust ttl negative,
    calls.find? (acceptedFor k) = some i ∧ i.op = .insert key records trust ttl negative ∧
    e.trust = trust ∧ e.isNegative = negative ∧ t < expiry i ttl ∧
    e.records = records.map (fun r => { r with ttl := UInt32.ofNat ((expiry i ttl - t) / kSecond) }) ∧
    ∀ r ∈ e.records, r.ttl.toNat = (expiry i ttl - t) / kSecond
  /-- it is missing before it expires for one of four reasons -/
  absent : ∀ k i key records trust ttl negative, (c.lookup t k).1 = none →
    calls.find? (acceptedFor k) = some i → i.op = .insert key records trust ttl negative →
    t < expiry i ttl →
    ∃ newer older, calls = newer ++ i :: older ∧ ∃ call ∈ newer ++ [i], Removal k call
  rejected : ∀ key records trust ttl negative, accepts c t key trust ttl = false →
    c.insert t key records trust ttl negative = c
  missed : ∀ k, (c.lookup t k).1 = none → (c.lookup t k).2 = { c with misses := c.misses + 1 }

theorem lookup_some_live {t : ℕ} {e : CacheEntry} (h : (c.lookup t k).1 = some e) :
    ∃ d, content c k = some d ∧ t < d.expiresAt ∧ forgetHits e = Cache.served t d := by
  have hlookup : (c.lookup t k).1.map forgetHits = (live c t k).map (Cache.served t) := lookup_eq
  rw [h] at hlookup
  obtain ⟨d, hd, hserved⟩ := Option.map_eq_some_iff.mp hlookup.symm
  obtain ⟨hcontent, hlive⟩ := Option.filter_eq_some_iff.mp hd
  exact ⟨d, hcontent, of_decide_eq_true hlive, hserved.symm⟩

theorem lookup_of_content {t : ℕ} {d : CacheEntry} (hd : content c k = some d)
    (hlive : t < d.expiresAt) :
    ∃ e, (c.lookup t k).1 = some e ∧ forgetHits e = Cache.served t d := by
  have hlookup : (c.lookup t k).1.map forgetHits = (live c t k).map (Cache.served t) := lookup_eq
  rw [live, hd, Option.filter_some, if_pos (decide_eq_true hlive), Option.map_some,
    Option.map_eq_some_iff] at hlookup
  exact hlookup

/-- The seconds left fit into a TTL. -/
theorem toNat_remaining {i : Call} {t : ℕ} (hi : i.now ≤ t) (ttl : UInt32) :
    (UInt32.ofNat ((expiry i ttl - t) / kSecond)).toNat = (expiry i ttl - t) / kSecond := by
  have hle : (expiry i ttl - t) / kSecond ≤ (i.before.effectiveTtl ttl).toNat := by
    refine Nat.div_le_of_le_mul ?_
    unfold expiry
    rw [Nat.mul_comm kSecond]
    omega
  exact UInt32.toNat_ofNat_of_lt' (hle.trans_lt (i.before.effectiveTtl ttl).toNat_lt)

/-- **After every history the cache is an expiring map ranked by trust.** -/
theorem history_refines {sizes : Sizes} {config : CacheConfig} (h : History sizes config calls c)
    {t : ℕ} (ht : ∀ call ∈ calls, call.now ≤ t) : Refines calls c t := by
  have hrecall := content_eq_recall h
  refine ⟨?_, ?_, fun _ _ _ _ _ hrejected => insert_rejected hrejected, fun _ => lookup_missed⟩
  · intro k e he
    obtain ⟨d, hd, hlive, hserved⟩ := lookup_some_live he
    rw [hrecall] at hd
    obtain ⟨i, hi, hentry⟩ := remembered_some hd
    obtain ⟨key, records, trust, ttl, negative, hop, -, hnew⟩ :=
      entryOf_acceptedFor (List.find?_some hi)
    obtain rfl := Option.some.inj (hentry.symm.trans hnew)
    have hrecords : e.records = records.map fun r =>
        { r with ttl := UInt32.ofNat ((expiry i ttl - t) / kSecond) } :=
      (congrArg CacheEntry.records hserved :)
    refine ⟨i, key, records, trust, ttl, negative, hi, hop, ?_, ?_, hlive, hrecords, ?_⟩
    · exact (congrArg CacheEntry.trust hserved :)
    · exact (congrArg CacheEntry.isNegative hserved :)
    · intro r hr
      rw [hrecords] at hr
      obtain ⟨r', -, rfl⟩ := List.mem_map.mp hr
      exact toNat_remaining (ht i (List.mem_of_find?_eq_some hi)) ttl
  · intro k i key records trust ttl negative hnone hi hop hlive
    obtain ⟨key', records', trust', ttl', negative', hop', -, hnew⟩ :=
      entryOf_acceptedFor (List.find?_some hi)
    obtain ⟨rfl, rfl, rfl, rfl, rfl⟩ := Op.insert.inj (hop.symm.trans hop')
    have hgone : remembered k calls = none := by
      cases hk : remembered k calls with
      | none => rfl
      | some e =>
        obtain ⟨j, hj, hentry⟩ := remembered_some hk
        obtain rfl := Option.some.inj (hi.symm.trans hj)
        obtain rfl := Option.some.inj (hentry.symm.trans hnew)
        have hlive' : t < (i.before.newEntry i.now records trust ttl negative).expiresAt := hlive
        have hlookup := lookup_none_iff.mp hnone
        rw [live, hrecall, hk, Option.filter_some, if_pos (decide_eq_true hlive')] at hlookup
        exact absurd hlookup (by simp)
    obtain ⟨newer, older, hsplit, call, hcall, hremoves⟩ := remembered_none hgone hi
    exact ⟨newer, older, hsplit, call, hcall, removal_of_removes hremoves⟩

theorem history_refines_fiveInserts :
    History ⟨0, 0, 0, 0⟩ smallConfig (smallHistory fiveInserts).1 (smallHistory fiveInserts).2 ∧
      ((smallHistory (fiveInserts.take 3)).2.lookup 4 { name := {} }).1.map CacheEntry.trust = some .answer ∧
      ((smallHistory fiveInserts).2.lookup 5 { name := {} }).1.isNone = true ∧
      ((smallHistory fiveInserts).2.lookup 5 { name := ⟨[[98]], [[98]]⟩ }).1.isSome = true ∧
      Refines (smallHistory fiveInserts).1 (smallHistory fiveInserts).2 5 :=
  ⟨history_small (by decide), by decide +kernel, by decide +kernel, by decide +kernel,
    history_refines (history_small (by decide)) (by decide +kernel)⟩

end DNSentinel.Store.Recall
