import DNSentinel.Resolver.Turns

/-! # What moves keep

Derived from the list of moves: a step never touches who waits for a task and what it waits for
(`Life`); it counts sub-queries per zone visit; everything in the cache comes from a recorded
insertion (`SharedOk`); and the CNAMEs of a task form a chain from its question to its current name
(`ChainOk`). -/

namespace DNSentinel.Resolver.Effects

open DNSentinel.Types Store.Model Store.Contents Data Resolver.Core Turns

variable {cfg : Config} {src : Option Source} {a b : Shared × Task}

theorem moves_keep {P : Shared × Task → Prop} (hmove : ∀ a b, Move cfg src a b → P a → P b)
    (h : Moves cfg src a b) (ha : P a) : P b := by
  induction h with
  | refl => exact ha
  | tail _ hbc ih => exact hmove _ _ hbc ih

/-! ### Who waits, and for what -/

/-- Who waits for a task, what it waits for, and what it was made with. -/
structure Life where
  question : Question
  ancestry : List Question
  budget : ℕ
  started : ℕ
  upstream : Option ℕ
  child : Option ℕ
  startTimer : Option ℕ
  deadline : Option ℕ
  done : Done
  client : Bool
  joiners : List Waiter

def life (t : Task) : Life :=
  { question := t.question, ancestry := t.ancestry, budget := t.budget, started := t.started
    upstream := t.upstream, child := t.child, startTimer := t.startTimer, deadline := t.deadline
    done := t.done, client := t.client, joiners := t.joiners }

theorem moves_life (h : Moves cfg src a b) : life b.2 = life a.2 := by
  refine moves_keep (P := fun c => life c.2 = life a.2) (fun c d hcd hc => ?_) h rfl
  rw [← hc]
  cases hcd <;> rfl

/-- A step ends where its moves lead, but for the count of a sub-query it starts. -/
theorem turn_moves {turn : Turn} (h : TurnOk cfg src a turn) :
    ∃ t, Moves cfg src a (turn.1, t) ∧ (turn.2.1 = t ∨
      turn.2.1 = { t with gluelessLookups := t.gluelessLookups + 1 }) := by
  obtain ⟨sh, t, next⟩ := turn
  obtain ⟨t', hmoves, hnext⟩ := h
  refine ⟨t', hmoves, ?_⟩
  match next, hnext with
  | .finish (.ok _), ⟨ht, _⟩ => exact .inl ht
  | .finish (.error _), ht => exact .inl ht
  | .sendQuery _ _, ⟨ht, _⟩ => exact .inl ht
  | .spawn _ _, ⟨ht, _⟩ => exact .inr ht

theorem turn_life {turn : Turn} (h : TurnOk cfg src a turn) : life turn.2.1 = life a.2 := by
  obtain ⟨t, hmoves, ht | ht⟩ := turn_moves h <;> rw [ht] <;> exact (moves_life hmoves :)

theorem turn_result {sh : Shared} {t : Task} {r : ResolveResult}
    (h : TurnOk cfg src a (sh, t, .finish (.ok r))) : ∃ answers,
      r.response.answers = t.chain ++ answers ∧
      ResultOk cfg src a (sh, t) r.response.header.rcode answers r.response.authority := by
  obtain ⟨u, -, hu, rcode, answers, authority, hr, hok⟩ := h
  have hr : outcome t rcode answers authority = .ok r := hr
  obtain rfl : t = u := hu
  obtain rfl := Except.ok.inj hr
  exact ⟨answers, rfl, hok⟩

/-! ### Sub-queries of a zone visit -/

/-- The sub-queries counted for the zone visit of `t'`, if `t` came first: the count goes on within
a visit and starts again with a new one. -/
def Lookups (t t' : Task) : Prop :=
  t'.visits = t.visits ∧ t'.gluelessLookups = t.gluelessLookups ∨
    t.visits < t'.visits ∧ t'.gluelessLookups = 0

theorem moves_lookups (h : Moves cfg src a b) : Lookups a.2 b.2 := by
  refine moves_keep (P := fun c => Lookups a.2 c.2) (fun c d hcd hc => ?_) h (.inl ⟨rfl, rfl⟩)
  cases hcd with
  | enter sh t zone =>
    refine .inr ⟨?_, rfl⟩
    show a.2.visits < t.visits + 1
    rcases hc with ⟨hv, -⟩ | ⟨hv, -⟩ <;> dsimp only at hv <;> omega
  | _ => exact hc

/-- Servers stay known to change letter case. -/
theorem turn_no0x20 {turn : Turn} (h : TurnOk cfg src a turn) : a.1.no0x20 ⊆ turn.1.no0x20 := by
  obtain ⟨t, hmoves, -⟩ := turn_moves h
  refine moves_keep (P := fun c => a.1.no0x20 ⊆ c.1.no0x20) (fun c d hcd hc => ?_) hmoves
    (List.Subset.refl _)
  cases hcd with
  | mark sh t address => exact List.subset_cons_of_subset _ hc
  | _ => exact hc

/-! ### Where cached data is from -/

/-- Everything cached was inserted, and every insertion was in order. -/
structure SharedOk (sh : Shared) : Prop where
  recorded : ∀ k e, Held sh.cache k e → ∃ i ∈ sh.inserts, (i.key == k) = true ∧
    i.negative = e.isNegative ∧ i.trust = e.trust ∧ i.records = e.records
  inserts : ∀ i ∈ sh.inserts, InsertOk i ∧ Backed i

theorem SharedOk.of_held {sh sh' : Shared} (h : SharedOk sh) (hi : sh'.inserts = sh.inserts)
    (hc : ∀ k e, Held sh'.cache k e → Held sh.cache k e) : SharedOk sh' where
  recorded k e he := hi ▸ h.recorded k e (hc k e he)
  inserts := hi ▸ h.inserts

theorem SharedOk.insert {sh : Shared} (h : SharedOk sh) {source : Source} {key : CacheKey}
    {records : List RR} {trust : TrustRank} {ttl : UInt32} {negative : Bool}
    (hi : InsertOk ⟨source, key, records, trust, ttl, negative, sh.now, sh.cache⟩)
    (hb : Backed ⟨source, key, records, trust, ttl, negative, sh.now, sh.cache⟩) :
    SharedOk (sh.insert source key records trust ttl negative) where
  recorded k e he := by
    rcases held_insert he with he | ⟨hk, rfl⟩
    · obtain ⟨j, hj, hrest⟩ := h.recorded k e he
      exact ⟨j, List.mem_cons_of_mem _ hj, hrest⟩
    · exact ⟨_, List.mem_cons_self, BEq.symm hk, rfl, rfl, rfl⟩
  inserts j hj := by
    rcases List.mem_cons.mp hj with rfl | hj
    · exact ⟨hi, hb⟩
    · exact h.inserts j hj

theorem move_shared (h : Move cfg src a b) (ha : SharedOk a.1) : SharedOk b.1 := by
  cases h with
  | lookup sh t key | serve sh t use key e | followCached =>
    exact ha.of_held rfl fun _ _ => held_lookup
  | insert sh t _ key records trust ttl negative hi hb => exact ha.insert hi hb
  | select | mark => exact ha.of_held rfl fun _ _ he => he
  | note => exact ha
  | enter => exact ha
  | follow => exact ha

theorem moves_shared (h : Moves cfg src a b) (ha : SharedOk a.1) : SharedOk b.1 :=
  moves_keep (P := fun c => SharedOk c.1) (fun _ _ => move_shared) h ha

theorem turn_shared {turn : Turn} (h : TurnOk cfg src a turn) (ha : SharedOk a.1) :
    SharedOk turn.1 := by
  obtain ⟨t, hmoves, -⟩ := turn_moves h
  exact moves_shared hmoves ha

/-- The entry was made by the insertion `i`, the TTLs aside. -/
structure MadeBy (key : CacheKey) (e : CacheEntry) (i : Insert) : Prop where
  ok : InsertOk i
  backed : Backed i
  key : (i.key == key) = true
  negative : i.negative = e.isNegative
  trust : i.trust = e.trust
  records : ∃ ttl, e.records = i.records.map fun r => { r with ttl }

theorem MadeBy.mem {key : CacheKey} {e : CacheEntry} {i : Insert} (h : MadeBy key e i) {r : RR}
    (hr : r ∈ e.records) : ∃ r' ∈ i.records, r = { r' with ttl := r.ttl } := by
  obtain ⟨ttl, hrecords⟩ := h.records
  rw [hrecords] at hr
  obtain ⟨r', hr', rfl⟩ := List.mem_map.mp hr
  exact ⟨r', hr', rfl⟩

/-- Answers are found under their name and type. -/
theorem MadeBy.owned {key : CacheKey} {e : CacheEntry} {i : Insert} (h : MadeBy key e i)
    (huse : e.isNegative = false ∧ e.trust = .answer) {r : RR} (hr : r ∈ e.records) :
    OwnedBy key.name key.qtype r := by
  obtain ⟨r', hr', heq⟩ := h.mem hr
  obtain ⟨hname, htype, -⟩ := CacheKey.beq_iff.mp h.key
  obtain ⟨hcls, htype'⟩ := h.backed.filed (h.trust.trans huse.2) r' hr'
  have hname' := (h.ok.owner (h.negative.trans huse.1) r' hr').1
  rw [heq]
  refine ⟨?_, htype'.trans htype, hcls⟩
  rw [Name.beq_iff] at hname' ⊢
  exact hname'.trans hname

/-- A hit comes from a recorded insertion under an equal key. -/
theorem lookup_recorded {sh : Shared} {key : CacheKey} {e : CacheEntry} (hsh : SharedOk sh)
    (h : (sh.lookup key).1 = some e) : ∃ i ∈ sh.inserts, MadeBy key e i := by
  obtain ⟨k, d, hd, hk, -, hserved⟩ := lookup_some h
  obtain ⟨i, hi, hik, hneg, htrust, hrecs⟩ := hsh.recorded k d hd
  obtain ⟨hok, hbacked⟩ := hsh.inserts i hi
  refine ⟨i, hi, hok, hbacked, PartialEquivBEq.trans hik hk, ?_, ?_, ?_⟩
  · rw [hneg]
    exact (congrArg CacheEntry.isNegative hserved).symm
  · rw [htrust]
    exact (congrArg CacheEntry.trust hserved).symm
  · have hsame := congrArg CacheEntry.records hserved
    rw [hrecs]
    exact ⟨_, hsame⟩

/-- The insertions a step adds are made for the response it handles. -/
theorem moves_inserts (h : Moves cfg src a b) : ∃ new, b.1.inserts = new ++ a.1.inserts ∧
    ∀ i ∈ new, InsertOk i ∧ src = some i.source := by
  refine moves_keep (P := fun c => ∃ new, c.1.inserts = new ++ a.1.inserts ∧
    ∀ i ∈ new, InsertOk i ∧ src = some i.source) (fun c d hcd hc => ?_) h ⟨[], rfl, by simp⟩
  obtain ⟨new, hnew, hok⟩ := hc
  cases hcd with
  | insert sh t hs key records trust ttl negative hi =>
    refine ⟨_ :: new, congrArg _ hnew, fun i hi' => ?_⟩
    rcases List.mem_cons.mp hi' with rfl | hi'
    · exact ⟨hi, hs⟩
    · exact hok i hi'
  | _ => exact ⟨new, hnew, hok⟩

/-- A hit within a step comes from an insertion made before it, or for the response it handles. -/
theorem hit_recorded {key : CacheKey} {e : CacheEntry} (hsh : SharedOk a.1)
    (h : Hit cfg src a b key e) :
    ∃ i, (i ∈ a.1.inserts ∨ src = some i.source) ∧ MadeBy key e i := by
  obtain ⟨s, hmoves, hit, -⟩ := h
  obtain ⟨i, hi, hmade⟩ := lookup_recorded (moves_shared hmoves hsh) hit
  obtain ⟨new, hnew, hok⟩ := moves_inserts hmoves
  rw [hnew] at hi
  refine ⟨i, ?_, hmade⟩
  rcases List.mem_append.mp hi with hi | hi
  · exact .inr (hok i hi).2
  · exact .inl hi

/-! ### The CNAME chain -/

/-- `chain` leads from `n` to `m`: each CNAME is owned by the name before and points to the next. -/
def Linked (n : Name) : List RR → Name → Prop
  | [], m => (n == m) = true
  | r :: rest, m => (r.name == n) = true ∧ r.type = kTypeCNAME ∧
      ∃ target, r.rdata = .cname target ∧ Linked target rest m

theorem Linked.snoc {r : RR} {m target : Name} (hname : (r.name == m) = true)
    (htype : r.type = kTypeCNAME) (hdata : r.rdata = .cname target) :
    ∀ {n : Name} {chain : List RR}, Linked n chain m → Linked n (chain ++ [r]) target
  | n, [], h => by
    refine ⟨?_, htype, target, hdata, Name.beq_refl target⟩
    rw [Name.beq_iff] at hname ⊢
    exact hname.trans (Name.beq_iff.mp h).symm
  | n, _ :: _, ⟨hn, ht, next, hd, hrest⟩ =>
    ⟨hn, ht, next, hd, Linked.snoc hname htype hdata hrest⟩

theorem Linked.congr {n n' m : Name} {chain : List RR} (h : Linked n chain m)
    (hn : n.labels = n'.labels) : Linked n' chain m := by
  cases chain with
  | nil =>
    show (n' == m) = true
    rw [Name.beq_iff, ← hn]
    exact Name.beq_iff.mp h
  | cons r chain =>
    obtain ⟨hname, hrest⟩ := h
    refine ⟨?_, hrest⟩
    rw [Name.beq_iff, ← hn]
    exact Name.beq_iff.mp hname

/-- The CNAMEs followed lead from the question to the current name. -/
structure ChainOk (t : Task) : Prop where
  linked : Linked t.question.qname t.chain t.qname
  qtype : t.chain ≠ [] → t.question.qtype ≠ kTypeCNAME

theorem ChainOk.follow {t : Task} (h : ChainOk t) {r : RR} {target : Name}
    (hq : t.question.qtype ≠ kTypeCNAME) (hname : (r.name == t.qname) = true)
    (htype : r.type = kTypeCNAME) (hdata : r.rdata = .cname target) :
    ChainOk { t with cnameHops := t.cnameHops + 1, chain := t.chain ++ [r], qname := target } :=
  ⟨h.linked.snoc hname htype hdata, fun _ => hq⟩

theorem move_chain (h : Move cfg src a b) (hsh : SharedOk a.1) (ha : ChainOk a.2) : ChainOk b.2 := by
  cases h with
  | follow sh t r target _ hq hname htype hdata => exact ha.follow hq hname htype hdata
  | followCached sh t e r target _ hq hit huse hmem hdata =>
    -- the cached record was inserted under the name that is being resolved
    obtain ⟨i, -, hmade⟩ := lookup_recorded hsh hit
    have howned := hmade.owned huse hmem
    exact ha.follow hq howned.name howned.type hdata
  | lookup | serve | insert | select | mark | note | enter => exact ⟨ha.linked, ha.qtype⟩

theorem moves_chain (h : Moves cfg src a b) (hsh : SharedOk a.1) (ha : ChainOk a.2) : ChainOk b.2 :=
  (moves_keep (P := fun c => SharedOk c.1 ∧ ChainOk c.2)
    (fun _ _ hcd hc => ⟨move_shared hcd hc.1, move_chain hcd hc.1 hc.2⟩) h ⟨hsh, ha⟩).2

theorem turn_chain {turn : Turn} (h : TurnOk cfg src a turn) (hsh : SharedOk a.1)
    (ha : ChainOk a.2) : ChainOk turn.2.1 := by
  obtain ⟨t, hmoves, ht | ht⟩ := turn_moves h
  · rw [ht]
    exact moves_chain hmoves hsh ha
  · rw [ht]
    have hchain := moves_chain hmoves hsh ha
    exact ⟨hchain.linked, hchain.qtype⟩

/-- A task that has followed no CNAME is still at its question. -/
def AtQuestion (t : Task) : Prop := t.chain = [] → t.qname = t.question.qname

theorem moves_atQuestion (h : Moves cfg src a b) (ha : AtQuestion a.2) : AtQuestion b.2 := by
  refine moves_keep (P := fun c => AtQuestion c.2) (fun c d hcd hc => ?_) h ha
  cases hcd with
  | follow | followCached => exact fun hnil => absurd hnil (by simp)
  | _ => exact hc

theorem turn_atQuestion {turn : Turn} (h : TurnOk cfg src a turn) (ha : AtQuestion a.2) :
    AtQuestion turn.2.1 := by
  obtain ⟨t, hmoves, ht | ht⟩ := turn_moves h <;> rw [ht] <;> exact (moves_atQuestion hmoves ha :)

end DNSentinel.Resolver.Effects
